import Xv6.Kill.Model

/-!
# xv6 — a `kill` that is lost

Each of the loops tests `p->killed` in the turn that leads to `sleep` (`Call.turn_killed`), but the test
and the moment `sleep` takes `p->lock` are two steps: a `kill` that comes between them finds the
process neither asleep nor about to look at `killed` again.

* `kill_reaches_sleeper` — a `kill` at any other time is never lost: while a process is `SLEEPING` in one of
  these calls with `killed` set, the `kill` that is to wake it up is in progress. A `kill` at that time
  always is.
* `kill_lost` — in each of the five calls.
-/

namespace Xv6.Kill

/-- A process that sleeps with `killed` set is being woken up by `kill`. -/
def NoLostKill (s : Sys) : Prop :=
  ∀ p, (s.proc p).sleeping ≠ none → (s.proc p).killed = true → (s.proc p).kill = true

/-- A `kill` does not hit a process between its test of `killed` and `acquire(&p->lock)` in `sleep`. -/
def Timely (s : Sys) : Act → Prop
  | .kill p => ∀ c, (s.proc p).pc ≠ .toSleep c
  | _ => True

/-- No loop goes to sleep in a turn in which it sees `killed`. -/
theorem Call.turn_killed (o : Objs) (p : Nat) (c : Call) : c.turn o p true ≠ .sleep := by
  cases c with
  | wait =>
    simp only [Call.turn, or_true, if_true]
    split <;> nofun
  | pipewrite src n i =>
    simp only [Call.turn, Pipe.writeTurn, or_true, if_true]
    by_cases hMore : (i : Int) < n
    · rw [if_pos hMore]
      nofun
    · rw [if_neg hMore]
      nofun
  | piperead =>
    simp only [Call.turn, Pipe.waitTurn, if_true]
    by_cases hEmpty : o.pipe.empty = true ∧ o.pipe.writeopen = true
    · rw [if_pos hEmpty]
      nofun
    · rw [if_neg hEmpty]
      nofun
  | consoleread target n =>
    simp only [Call.turn, if_true]
    split
    · nofun
    · split <;> nofun
    · nofun
  | sysSleep ticks0 n =>
    simp only [Call.turn, if_true]
    split <;> nofun

structure KillInv (x : Proc) : Prop where
  asleep  : x.sleeping ≠ none → x.killed = true → x.kill = true
  awake   : (∀ c, x.pc ≠ .asleep c) → x.sleeping = none
  toSleep : ∀ c, x.pc = .toSleep c → x.killed = false

/-- A step that moves process `p` only. -/
theorem all_upd {P : Proc → Prop} {f : Nat → Proc} (h : ∀ q, P (f q)) {p : Nat} {x : Proc} (hx : P x) :
    ∀ q, P (upd f p x q) := fun q => by
  by_cases hq : q = p
  · rw [hq, upd_self]
    exact hx
  · rw [upd_of_ne hq]
    exact h q

theorem KillInv.move {x : Proc} {pc : Pc} (h : KillInv x) (hOld : ∀ c, x.pc ≠ .asleep c)
    (hNew : ∀ c, pc = .toSleep c → x.killed = false) : KillInv { x with pc := pc } where
  asleep := h.asleep
  awake _ := h.awake hOld
  toSleep := hNew

theorem killInv_turn {s : Sys} {p : Nat} {c : Call} (h : ∀ q, KillInv (s.proc q))
    (hPc : (s.proc p).pc = .loop c) {t : Turn} (ht : c.turn s.objs p (s.proc p).killed = t) :
    ∀ q, KillInv ((s.afterTurn p c t).proc q) := by
  have hOld : ∀ c, (s.proc p).pc ≠ .asleep c := fun c' => by rw [hPc]; nofun
  cases t with
  | leave | again => exact all_upd h ((h p).move hOld nofun)
  | sleep =>
    refine all_upd h ((h p).move hOld fun _ _ => ?_)
    -- the turn has seen that `killed` is not set
    cases hKilled : (s.proc p).killed with
    | false => rfl
    | true =>
      rw [hKilled] at ht
      exact absurd ht (Call.turn_killed s.objs p c)

theorem killInv_step {s s' : Sys} {a : Act} (h : ∀ p, KillInv (s.proc p)) (hTimely : Timely s a)
    (hStep : killLts.step s a = some (.ok s')) : ∀ p, KillInv (s'.proc p) := by
  cases a with
  | call p c =>
    simp only [killLts, Sys.step] at hStep
    split at hStep
    · rename_i hPc
      cases hStep
      exact all_upd h ((h p).move (fun c' => by rw [hPc]; nofun) nofun)
    · cases hStep
  | acquire p =>
    simp only [killLts, Sys.step] at hStep
    split at hStep
    · rename_i c hPc
      split at hStep
      · cases hStep
      · cases hStep
        exact all_upd h ((h p).move (fun c' => by rw [hPc]; nofun) nofun)
    · split at hStep
      · cases hStep
      · rename_i hWoken
        cases hStep
        rw [not_or, not_not] at hWoken
        exact all_upd h ⟨(h p).asleep, fun _ => hWoken.2, nofun⟩
    · cases hStep
  | turn p =>
    simp only [killLts, Sys.step] at hStep
    split at hStep
    · rename_i c hPc
      cases hStep
      exact killInv_turn h hPc rfl
    · cases hStep
  | sleep p =>
    simp only [killLts, Sys.step] at hStep
    split at hStep
    · rename_i c hPc
      split at hStep
      · cases hStep
      · cases hStep
        have hKilled := (h p).toSleep c hPc
        refine all_upd h ⟨fun _ hBad => ?_, fun hBad => absurd rfl (hBad c), nofun⟩
        rw [hKilled] at hBad
        cases hBad
    · cases hStep
  | kill p =>
    simp only [killLts, Sys.step] at hStep
    split at hStep
    · cases hStep
    · cases hStep
      exact all_upd h ⟨fun _ _ => rfl, (h p).awake, fun c hPc => absurd hPc (hTimely c)⟩
  | killed p =>
    simp only [killLts, Sys.step] at hStep
    split at hStep
    · cases hStep
      exact all_upd h ⟨fun hBad => absurd rfl hBad, fun _ => rfl, (h p).toSleep⟩
    · cases hStep
  | wakeup chan p =>
    simp only [killLts, Sys.step] at hStep
    split at hStep
    · cases hStep
    · cases hStep
      refine all_upd h ?_
      split
      · exact ⟨fun hBad => absurd rfl hBad, fun _ => rfl, (h p).toSleep⟩
      · exact h p
  | change l o =>
    simp only [killLts, Sys.step] at hStep
    split at hStep
    · cases hStep
    · cases hStep
      exact h
  | renew p =>
    simp only [killLts, Sys.step] at hStep
    split at hStep
    · rename_i hPc
      split at hStep
      · cases hStep
      · cases hStep
        refine all_upd h ⟨fun hBad => absurd ((h p).awake fun c => by rw [hPc]; nofun) hBad, (h p).awake,
          fun _ _ => rfl⟩
    · cases hStep

theorem killInv_run {tr : List Act} {s : Sys} (h : killLts.RunIf Timely tr s) :
    ∀ p, KillInv (s.proc p) := by
  refine h.invariant (I := fun _ s => ∀ p, KillInv (s.proc p)) (fun s hInit p => ?_)
    fun tr s a s' _ hInv hIf hStep => killInv_step hInv hIf hStep
  rw [hInit.2 p]
  exact ⟨fun hBad => absurd rfl hBad, fun _ => rfl, nofun⟩

/-- A `kill` of a process that is about to sleep, and the `sleep`. -/
def late (p : Nat) : List Act := [.kill p, .killed p, .sleep p]

theorem lost_of_late {tr : List Act} {s : Sys} {p : Nat} {c : Call} (h : killLts.Run tr s)
    (hPc : (s.proc p).pc = .toSleep c) (hKill : (s.proc p).kill = false) :
    ∃ s', killLts.Run (tr ++ late p) s' ∧ ¬ NoLostKill s' := by
  have hSet : killLts.step s (.kill p) =
      some (.ok (s.setProc p fun x => { x with killed := true, kill := true })) := by
    simp only [killLts, Sys.step, hKill]
    rfl
  obtain ⟨s₁, hs₁, hProc₁⟩ : ∃ s₁, killLts.step (s.setProc p fun x => { x with killed := true, kill := true })
      (.killed p) = some (.ok s₁) ∧
      s₁.proc p = { killed := true, sleeping := none, kill := false, pc := .toSleep c } := by
    simp only [killLts, Sys.step, Sys.setProc, upd_self, if_true]
    exact ⟨_, rfl, by simp only [upd_self, hPc]⟩
  obtain ⟨s₂, hs₂, hProc₂⟩ : ∃ s₂, killLts.step s₁ (.sleep p) = some (.ok s₂) ∧
      s₂.proc p = { killed := true, sleeping := some (c.chan p), kill := false, pc := .asleep c } := by
    simp only [killLts, Sys.step, Sys.setProc, hProc₁, Bool.false_eq_true, if_false]
    exact ⟨_, rfl, by simp only [Sys.setLock, upd_self]⟩
  have hRun := ((h.step hSet).step hs₁).step hs₂
  rw [List.append_assoc, List.append_assoc] at hRun
  refine ⟨s₂, hRun, fun hNone => ?_⟩
  have hBad := hNone p
  rw [hProc₂] at hBad
  simp at hBad

/-- A `kill` reaches a process that sleeps in one of the calls, unless it comes between the test of `killed`
and the `sleep`; there it is lost if the `sleep` is next. -/
theorem kill_reaches_sleeper {tr : List Act} {s : Sys} :
    (killLts.RunIf Timely tr s → NoLostKill s) ∧
    ∀ p, killLts.Run tr s → (s.proc p).kill = false → ¬ Timely s (.kill p) →
      ∃ s', killLts.Run (tr ++ late p) s' ∧ ¬ NoLostKill s' := by
  refine ⟨fun h p => (killInv_run h p).asleep, fun p h hKill hLate => ?_⟩
  obtain ⟨c, hPc⟩ := not_forall.mp hLate
  exact lost_of_late h (not_not.mp hPc) hKill

/-- A process with a child that runs, a pipe that holds `n` bytes, and a console without input. -/
def Objs.waiting (n : BitVec 32) : Objs where
  pipe := { data := fun _ => 0, nread := 0, nwrite := n, readopen := true, writeopen := true }
  cons := { data := fun _ => 0, nread := 0, nwrite := 0, w := 0 }
  ticks := 0
  kids _ := [false]

def Sys.waiting (n : BitVec 32) : Sys where
  objs := .waiting n
  lock _ := false
  proc _ := { killed := false, sleeping := none, kill := false, pc := .idle }

/-- The five calls, each with the number of bytes in the pipe. -/
def waitingCalls : List (BitVec 32 × Call) :=
  [(0, .wait), (512, .pipewrite (fun _ => some 0) 1 0), (0, .piperead), (0, .consoleread 1 1),
    (0, .sysSleep 0 1)]

/-- Process 0 tests `killed`, is killed, and goes to sleep. -/
def lostRun (c : Call) : List Act := [.call 0 c, .acquire 0, .turn 0, .kill 0, .killed 0, .sleep 0]

theorem kill_lost : waitingCalls.Forall fun x => ∃ s, killLts.Run (lostRun x.2) s ∧
    (s.proc 0).sleeping = some (x.2.chan 0) ∧ (s.proc 0).killed = true ∧ ∀ p, (s.proc p).kill = false := by
  refine List.forall_iff_forall_mem.mpr fun x hx => ?_
  obtain ⟨s, hExec, hSleep, hKilled, hKill⟩ : ∃ s, killLts.exec (.waiting x.1) (lostRun x.2) = some s ∧
      (s.proc 0).sleeping = some (x.2.chan 0) ∧ (s.proc 0).killed = true ∧
      ∀ p, (s.proc p).kill = false := by
    simp only [waitingCalls, List.mem_cons, List.not_mem_nil, or_false] at hx
    rcases hx with rfl | rfl | rfl | rfl | rfl
    all_goals exact ⟨_, rfl, rfl, rfl, fun p => by cases p <;> rfl⟩
  have hStart : killLts.Run [] (.waiting x.1) := .start ⟨fun _ => rfl, fun _ => rfl⟩
  exact ⟨s, Lts.run_of_exec hStart hExec, hSleep, hKilled, hKill⟩

/-- Process 0 is killed while it sleeps in `piperead`. -/
theorem kill_reaches_piperead : ∃ s,
    killLts.RunIf Timely [.call 0 .piperead, .acquire 0, .turn 0, .sleep 0, .kill 0] s ∧
    (s.proc 0).sleeping = some .nread ∧ NoLostKill s := by
  have hStart : killLts.RunIf Timely [] (.waiting 0) := .start ⟨fun _ => rfl, fun _ => rfl⟩
  have hCall := hStart.step (a := .call 0 .piperead) (by trivial) rfl
  have hAcquire := hCall.step (a := .acquire 0) (by trivial) rfl
  have hTurn := hAcquire.step (a := .turn 0) (by trivial) rfl
  have hSleep := hTurn.step (a := .sleep 0) (by trivial) rfl
  have hKill := hSleep.step (a := .kill 0) (by nofun) rfl
  exact ⟨_, hKill, rfl, kill_reaches_sleeper.1 hKill⟩

end Xv6.Kill
