import Xv6.Intr.Model

/-!
# xv6 — interrupt state follows the process

`noff` and `intena` are fields of the CPU, but what they say is about the thread that the CPU runs:
`noff` is the number of `push_off`s that the thread has to undo, and `intena` is whether interrupts
were enabled for it before the first one (`ThreadOk`). When a process calls `sched`, the scheduler
it returns to has one `push_off` to undo as well, the one in its `acquire(&p->lock)`, so `noff`
need not change. `intena` is saved by `sched` and restored when the process goes on. For the
scheduler it is not restored: between the return of a process and the `release` that follows, `intena`
is that of the process.

* `inv_run` — the invariant in every state reached.
* `interrupts_follow` — the flag, the count, what the last `pop_off` does, and the panics.
-/

namespace Xv6.Intr

variable {s s' : IntrSys} {a : IntrAct} {k k' : Cpu} {t t' : Thread} {b b' : Book} {B B' : Tid → Book} {c p : Nat}

/-! ## The thread that a CPU runs -/

/-- Where an interrupt may find a thread. -/
def Pc.Open (pc : Pc) : Prop := pc = .code ∨ ∃ lk, pc = .pushing true lk

/-- CPU `k` runs thread `t`, whose history is `b`. -/
structure ThreadOk (k : Cpu) (t : Thread) (b : Book) : Prop where
  noff    : k.noff = t.count
  off     : 0 < t.count → k.intr = false
  count   : b.count = t.count
  intena  : 0 < t.count → t.pc ≠ .back → k.intena = b.base
  pushing : ∀ old lk, t.pc = .pushing old lk → old = k.intr
  back    : t.pc = .back → t.count = 1
  live    : t.pc ≠ .forkret ∧ t.pc ≠ .away ∧ ∀ i, t.pc ≠ .switched i
  traps   : ∀ pc ∈ t.traps, pc.Open

theorem Thread.count_of_ne (h : ∀ lk, t.pc ≠ .spinning lk) : t.count = t.held.length + t.offs := by
  unfold Thread.count
  split
  · exact absurd ‹_› (h _)
  · rfl

theorem Thread.count_code (h : t.pc = .code) : t.count = t.held.length + t.offs :=
  count_of_ne fun lk => by rw [h]; nofun

theorem Thread.count_spinning {lk : LockId} (h : t.pc = .spinning lk) : t.count = t.held.length + t.offs + 1 := by
  rw [Thread.count, h]

namespace ThreadOk

/-- With interrupts enabled there is nothing to undo, and the thread may be interrupted. -/
theorem enabled (h : ThreadOk k t b) (hOn : k.intr = true) : t.count = 0 ∧ t.pc.Open := by
  have hZero : t.count = 0 := by
    by_contra hne
    rw [h.off (Nat.pos_of_ne_zero hne)] at hOn
    cases hOn
  refine ⟨hZero, ?_⟩
  cases hpc : t.pc with
  | code => exact .inl rfl
  | pushing old lk => exact .inr ⟨lk, by rw [h.pushing old lk hpc, hOn]⟩
  | spinning lk =>
    rw [Thread.count_spinning hpc] at hZero
    omega
  | back =>
    rw [h.back hpc] at hZero
    cases hZero
  | forkret => exact absurd hpc h.live.1
  | away => exact absurd hpc h.live.2.1
  | switched i => exact absurd hpc (h.live.2.2 i)

/-- A step that neither adds nor undoes a `push_off`, and leaves the thread in its code or in the loop of `acquire`. -/
theorem of_code (h : ThreadOk k t b) (hCount : t'.count = t.count) (hBack : t.pc ≠ .back) (hpc : t'.pc = .code)
    (hTraps : ∀ pc ∈ t'.traps, pc.Open) (hNoff : k'.noff = k.noff) (hIntena : k'.intena = k.intena)
    (hIntr : 0 < t.count → k'.intr = false) : ThreadOk k' t' b where
  noff := by rw [hNoff, h.noff, hCount]
  off hPos := hIntr (hCount ▸ hPos)
  count := by rw [h.count, hCount]
  intena hPos _ := hIntena.trans (h.intena (hCount ▸ hPos) hBack)
  pushing old lk hEq := by rw [hpc] at hEq; cases hEq
  back hEq := by rw [hpc] at hEq; cases hEq
  live := by rw [hpc]; exact ⟨nofun, nofun, nofun⟩
  traps := hTraps

theorem intrGet (h : ThreadOk k t b) (hpc : t.pc = .code) (lk : Option LockId) :
    ThreadOk k { t with pc := .pushing k.intr lk } b := by
  have hCount : Thread.count { t with pc := .pushing k.intr lk } = t.count := (Thread.count_code hpc).symm
  exact {
    noff := by rw [h.noff, hCount]
    off := fun hPos => h.off (hCount ▸ hPos)
    count := by rw [h.count, hCount]
    intena := fun hPos _ => h.intena (hCount ▸ hPos) (by rw [hpc]; nofun)
    pushing := fun old lk' hEq => by cases hEq; rfl
    back := nofun
    live := ⟨nofun, nofun, nofun⟩
    traps := h.traps }

theorem pushOff (h : ThreadOk k t b) {old : Bool} {lk : Option LockId} (hpc : t.pc = .pushing old lk)
    (hCount : t'.count = t.count + 1) (hpc' : t'.pc = .code ∨ ∃ lk, t'.pc = .spinning lk) (hTraps : t'.traps = t.traps) :
    ThreadOk (k.pushOff old) t' ⟨b.count + 1, if b.count = 0 then old else b.base⟩ where
  noff := by
    have hEq : (k.pushOff old).noff = k.noff + 1 := by
      unfold Cpu.pushOff
      dsimp only
      split <;> rfl
    rw [hEq, h.noff, hCount]
    rfl
  off _ := by
    unfold Cpu.pushOff
    dsimp only
    split <;> rfl
  count := by rw [hCount, h.count]
  intena _ _ := by
    have hZero : k.noff = 0 ↔ b.count = 0 := by rw [h.noff, h.count]; omega
    unfold Cpu.pushOff
    dsimp only
    by_cases hb : b.count = 0
    · rw [if_pos (hZero.mpr hb), if_pos hb]
    · rw [if_neg (mt hZero.mp hb), if_neg hb]
      refine h.intena ?_ (by rw [hpc]; nofun)
      rw [← h.count]
      omega
  pushing old lk hEq := by rcases hpc' with hpc' | ⟨l, hpc'⟩ <;> rw [hpc'] at hEq <;> cases hEq
  back hEq := by rcases hpc' with hpc' | ⟨l, hpc'⟩ <;> rw [hpc'] at hEq <;> cases hEq
  live := by rcases hpc' with hpc' | ⟨l, hpc'⟩ <;> rw [hpc'] <;> exact ⟨nofun, nofun, nofun⟩
  traps := hTraps ▸ h.traps

theorem sret (h : ThreadOk k t b) (hpc : t.pc = .code) (hZero : t.count = 0) {pc : Pc} {traps : List Pc} (hOpen : pc.Open)
    (hTraps : ∀ pc ∈ traps, pc.Open) : ThreadOk { k with intr := true } { t with pc, traps } b := by
  have hCount : Thread.count { t with pc, traps } = t.count := by
    rw [Thread.count_code hpc]
    exact Thread.count_of_ne fun lk => by rcases hOpen with rfl | ⟨l, rfl⟩ <;> nofun
  have hNot : ¬ 0 < Thread.count { t with pc, traps } := by omega
  exact {
    noff := by rw [hCount]; exact h.noff
    off := fun hPos => absurd hPos hNot
    count := by rw [hCount]; exact h.count
    intena := fun hPos => absurd hPos hNot
    pushing := fun old lk hEq => by
      rcases hOpen with rfl | ⟨l, rfl⟩
      · cases hEq
      · cases hEq
        rfl
    back := fun hEq => by rcases hOpen with rfl | ⟨l, rfl⟩ <;> cases hEq
    live := by rcases hOpen with rfl | ⟨l, rfl⟩ <;> exact ⟨nofun, nofun, nofun⟩
    traps := hTraps }

/-- `pop_off` does not panic when there is something to undo, and enables interrupts if it was the last one and they were
enabled at first. -/
theorem popOff (h : ThreadOk k t b) (hPos : 0 < t.count) : ∃ k', k.popOff = .ok k' ∧ k'.noff = k.noff - 1 ∧ k'.intena = k.intena ∧
    k'.proc = k.proc ∧ k'.intr = (decide (t.count = 1) && k.intena) := by
  have hNoff := h.noff
  have hOff := h.off hPos
  rw [Cpu.popOff, if_neg (by rw [hOff]; nofun), if_neg (by omega)]
  dsimp only
  refine ⟨_, rfl, ?_⟩
  by_cases hLast : t.count = 1
  · have hZero : k.noff - 1 = 0 := by omega
    rw [decide_eq_true hLast, Bool.true_and]
    cases hEna : k.intena with
    | true =>
      rw [if_pos ⟨hZero, rfl⟩]
      exact ⟨rfl, rfl, rfl, rfl⟩
    | false =>
      rw [if_neg (by simp)]
      exact ⟨rfl, rfl, rfl, hOff⟩
  · have hMore : k.noff - 1 ≠ 0 := by omega
    rw [if_neg (fun hBad => hMore hBad.1), decide_eq_false hLast, Bool.false_and]
    exact ⟨rfl, rfl, rfl, hOff⟩

/-- The thread after `pop_off`. -/
theorem popped (h : ThreadOk k t b) (hCount : t.count = t'.count + 1) (hpc : t'.pc = .code) (hTraps : t'.traps = t.traps)
    (hNoff : k'.noff = k.noff - 1) (hIntena : k'.intena = k.intena) (hIntr : k'.intr = (decide (t.count = 1) && k.intena)) :
    ThreadOk k' t' { b with count := b.count - 1 } where
  noff := by
    rw [hNoff, h.noff]
    omega
  off hPos := by rw [hIntr, decide_eq_false (by omega), Bool.false_and]
  count := by
    rw [h.count]
    show t.count - 1 = t'.count
    omega
  intena hPos _ := by
    rw [hIntena]
    refine h.intena (by omega) fun hBack => ?_
    have hOne := h.back hBack
    omega
  pushing old lk hEq := by rw [hpc] at hEq; cases hEq
  back hEq := by rw [hpc] at hEq; cases hEq
  live := by rw [hpc]; exact ⟨nofun, nofun, nofun⟩
  traps := hTraps ▸ h.traps

end ThreadOk

/-! ## All threads -/

/-- The scheduler of a CPU that runs process `p`. -/
structure Parked (p : Nat) (t : Thread) (b : Book) : Prop where
  pc    : t.pc = .away
  held  : t.held = [.proc p]
  offs  : t.offs = 0
  traps : t.traps = []
  count : b.count = 1

/-- A process that waits in `sched`. -/
structure Waits (p : Nat) (t : Thread) (b : Book) (intena : Bool) : Prop where
  pc    : t.pc = .switched intena
  held  : t.held = [.proc p]
  offs  : t.offs = 0
  traps : ∀ pc ∈ t.traps, pc.Open
  book  : b = ⟨1, intena⟩

theorem Book.eq {n : Nat} {e : Bool} (hCount : b.count = n) (hBase : b.base = e) : b = ⟨n, e⟩ := by
  cases b
  cases hCount
  cases hBase
  rfl

/-- The process has called `sched`. -/
theorem Parked.back (h : Parked p t b) (hNoff : k.noff = 1) (hIntr : k.intr = false) : ThreadOk k { t with pc := .back } b := by
  have hOne : Thread.count { t with pc := .back } = 1 := by
    show t.held.length + t.offs = 1
    rw [h.held, h.offs]
    rfl
  exact {
    noff := by rw [hNoff, hOne]; rfl
    off := fun _ => hIntr
    count := by rw [hOne, h.count]
    intena := fun _ hBack => absurd rfl hBack
    pushing := nofun
    back := fun _ => hOne
    live := ⟨nofun, nofun, nofun⟩
    traps := by
      show ∀ pc ∈ t.traps, pc.Open
      rw [h.traps]
      nofun }

/-- A process begins or goes on to run, with its lock to release. -/
theorem ThreadOk.of_lock (hpc : t.pc = .code) (hHeld : t.held = [.proc p]) (hOffs : t.offs = 0) (hTraps : ∀ pc ∈ t.traps, pc.Open)
    (hNoff : k.noff = 1) (hIntr : k.intr = false) : ThreadOk k t ⟨1, k.intena⟩ := by
  have hOne : t.count = 1 := by
    rw [Thread.count_code hpc, hHeld, hOffs]
    rfl
  exact {
    noff := by rw [hNoff, hOne]; rfl
    off := fun _ => hIntr
    count := hOne.symm
    intena := fun _ _ => rfl
    pushing := fun old lk hEq => by rw [hpc] at hEq; cases hEq
    back := fun hEq => by rw [hpc] at hEq; cases hEq
    live := by rw [hpc]; exact ⟨nofun, nofun, nofun⟩
    traps := hTraps }

structure Inv (B : Tid → Book) (s : IntrSys) : Prop where
  run    : ∀ c, ThreadOk (s.cpu c) (s.th (s.running c)) (B (s.running c))
  parked : ∀ c p, (s.cpu c).proc = some p → Parked p (s.th (.scheduler c)) (B (.scheduler c))
  state  : ∀ c p, (s.cpu c).proc = some p → s.state p = .running
  one    : ∀ c c' p, (s.cpu c).proc = some p → (s.cpu c').proc = some p → c' = c
  fresh  : ∀ p, s.state p = .used → (s.th (.proc p)).pc = .forkret
  ready  : ∀ p, s.state p = .runnable ∨ s.state p = .sleeping →
    (s.th (.proc p)).pc = .forkret ∨ ∃ i, Waits p (s.th (.proc p)) (B (.proc p)) i
  locks  : ∀ c, ∀ lk ∈ (s.th (s.running c)).held, s.lock lk = some c
  nodup  : ∀ c, (s.th (s.running c)).held.Nodup
  own    : ∀ p, (s.th (.proc p)).pc ≠ .back

theorem IntrSys.running_proc : s.running c = .proc p ↔ (s.cpu c).proc = some p := by
  unfold IntrSys.running
  split <;> simp [*]

theorem IntrSys.running_scheduler {c' : Nat} : s.running c = .scheduler c' ↔ c' = c ∧ (s.cpu c).proc = none := by
  unfold IntrSys.running
  split <;> simp [*, eq_comm]

theorem Inv.running_inj (h : Inv B s) {c c' : Nat} (hEq : s.running c' = s.running c) : c' = c := by
  cases hc : (s.cpu c).proc with
  | some p =>
    rw [IntrSys.running_proc.mpr hc, IntrSys.running_proc] at hEq
    exact h.one c c' p hc hEq
  | none =>
    rw [IntrSys.running_scheduler.mpr ⟨rfl, hc⟩, IntrSys.running_scheduler] at hEq
    exact hEq.1.symm

theorem Inv.not_running (h : Inv B s) (hState : s.state p ≠ .running) (c : Nat) : Tid.proc p ≠ s.running c :=
  fun hEq => hState (h.state c p (IntrSys.running_proc.mp hEq.symm))

/-- CPU `c` takes a step with the thread it runs, and goes on running it. -/
theorem Inv.of_thread (h : Inv B s) {lock' : LockId → Option Nat} (hProc : k.proc = (s.cpu c).proc)
    (hBook : ∀ x, x ≠ s.running c → B' x = B x) (hOk : ThreadOk k t (B' (s.running c)))
    (hLocks : ∀ lk ∈ t.held, lock' lk = some c) (hNodup : t.held.Nodup)
    (hOther : ∀ lk c', c' ≠ c → s.lock lk = some c' → lock' lk = some c') (hBack : t.pc ≠ .back) :
    Inv B' ({ s with lock := lock' }.setCpu c k |>.setTh (s.running c) t) := by
  set s' := ({ s with lock := lock' }.setCpu c k).setTh (s.running c) t with hs'
  have hCpu : ∀ c', (s'.cpu c').proc = (s.cpu c').proc := fun c' => by
    show (upd s.cpu c k c').proc = _
    by_cases hc : c' = c
    · rw [hc, upd_self, hProc]
    · rw [upd_of_ne hc]
  have hRun : ∀ c', s'.running c' = s.running c' := fun c' => by
    unfold IntrSys.running
    rw [hCpu]
  have hTh : ∀ x, x ≠ s.running c → s'.th x = s.th x := fun x hx => upd_of_ne hx
  have hElse : ∀ c', c' ≠ c → s.running c' ≠ s.running c := fun c' hc hEq => hc (h.running_inj hEq)
  refine ⟨fun c' => ?_, fun c' p hp => ?_, fun c' p hp => ?_, fun c₁ c₂ p h₁ h₂ => ?_, fun p hp => ?_, fun p hp => ?_,
    fun c' lk hlk => ?_, fun c' => ?_, fun p => ?_⟩
  · rw [hRun]
    by_cases hc : c' = c
    · subst hc
      show ThreadOk (upd s.cpu c' k c') (upd s.th _ t _) _
      rw [upd_self, upd_self]
      exact hOk
    · rw [hTh _ (hElse c' hc), hBook _ (hElse c' hc)]
      show ThreadOk (upd s.cpu c k c') _ _
      rw [upd_of_ne hc]
      exact h.run c'
  · rw [hCpu] at hp
    have hne : Tid.scheduler c' ≠ s.running c := fun hEq => by
      obtain ⟨rfl, hNone⟩ := IntrSys.running_scheduler.mp hEq.symm
      rw [hp] at hNone
      cases hNone
    rw [hTh _ hne, hBook _ hne]
    exact h.parked c' p hp
  · rw [hCpu] at hp
    exact h.state c' p hp
  · rw [hCpu] at h₁ h₂
    exact h.one c₁ c₂ p h₁ h₂
  · have hUsed : s.state p = .used := hp
    rw [hTh _ (h.not_running (by rw [hUsed]; nofun) c)]
    exact h.fresh p hUsed
  · have hReady : s.state p = .runnable ∨ s.state p = .sleeping := hp
    have hne := h.not_running (p := p) (by rcases hReady with hEq | hEq <;> rw [hEq] <;> nofun) c
    rw [hTh _ hne, hBook _ hne]
    exact h.ready p hReady
  · rw [hRun] at hlk
    by_cases hc : c' = c
    · subst hc
      rw [show s'.th (s.running c') = t from upd_self ..] at hlk
      exact hLocks lk hlk
    · rw [hTh _ (hElse c' hc)] at hlk
      exact hOther lk c' hc (h.locks c' lk hlk)
  · rw [hRun]
    by_cases hc : c' = c
    · subst hc
      rw [show s'.th (s.running c') = t from upd_self ..]
      exact hNodup
    · rw [hTh _ (hElse c' hc)]
      exact h.nodup c'
  · by_cases hp : Tid.proc p = s.running c
    · rw [hp, show s'.th (s.running c) = t from upd_self ..]
      exact hBack
    · rw [hTh _ hp]
      exact h.own p

theorem IntrSys.setCpu_self (s : IntrSys) (c : Nat) : s.setCpu c (s.cpu c) = s := by
  rw [IntrSys.setCpu, upd_eta]

theorem IntrSys.setTh_self (s : IntrSys) (x : Tid) : s.setTh x (s.th x) = s := by
  rw [IntrSys.setTh, upd_eta]

/-- The same, without a change of locks. -/
theorem Inv.of_same_locks (h : Inv B s) (hProc : k.proc = (s.cpu c).proc) (hBook : ∀ x, x ≠ s.running c → B' x = B x)
    (hOk : ThreadOk k t (B' (s.running c))) (hHeld : t.held = (s.th (s.running c)).held) (hBack : t.pc ≠ .back) :
    Inv B' ((s.setCpu c k).setTh (s.running c) t) :=
  h.of_thread hProc hBook hOk (fun lk hlk => h.locks c lk (hHeld ▸ hlk)) (hHeld ▸ h.nodup c) (fun _ _ _ hlk => hlk) hBack

/-! ## Steps -/

theorem Inv.intrGet (h : Inv B s) {x : Tid} {lk : Option LockId} (hAct : s.act (.intrGet c x lk) = some (.ok s')) : Inv B s' := by
  rw [IntrSys.act] at hAct
  split at hAct
  · rename_i hCode
    obtain ⟨rfl, hpc⟩ := hCode
    cases hAct
    have hStep := h.of_same_locks (c := c) rfl (fun _ _ => rfl) ((h.run c).intrGet hpc lk) rfl nofun
    rwa [IntrSys.setCpu_self] at hStep
  · cases hAct

theorem Inv.pushOff (h : Inv B s) {x : Tid} {old : Bool} (hAct : s.act (.pushOff c x old) = some (.ok s')) :
    Inv (IntrAct.record B (.pushOff c x old)) s' := by
  rw [IntrSys.act] at hAct
  split at hAct
  · rename_i old' lk hpc
    split at hAct
    · rename_i hRun
      obtain ⟨rfl, rfl⟩ := hRun
      have hCount : (s.th (s.running c)).count = (s.th (s.running c)).held.length + (s.th (s.running c)).offs :=
        Thread.count_of_ne fun lk => by rw [hpc]; nofun
      have hBook : ∀ x, x ≠ s.running c → IntrAct.record B (.pushOff c (s.running c) old) x = B x := fun x hx => upd_of_ne hx
      have hProc : ((s.cpu c).pushOff old).proc = (s.cpu c).proc := by
        unfold Cpu.pushOff
        dsimp only
        split <;> rfl
      cases lk with
      | none =>
        cases hAct
        refine h.of_same_locks hProc hBook ?_ rfl nofun
        rw [IntrAct.record, upd_self]
        refine (h.run c).pushOff hpc ?_ (.inl rfl) rfl
        rw [hCount, Thread.count_code rfl]
        rfl
      | some lk =>
        dsimp only at hAct
        split at hAct
        · cases hAct
        · cases hAct
          refine h.of_same_locks hProc hBook ?_ rfl nofun
          rw [IntrAct.record, upd_self]
          refine (h.run c).pushOff hpc ?_ (.inr ⟨lk, rfl⟩) rfl
          rw [hCount, Thread.count_spinning rfl]
          rfl
    · cases hAct
  · cases hAct

theorem Inv.take (h : Inv B s) {x : Tid} (hAct : s.act (.take c x) = some (.ok s')) : Inv B s' := by
  rw [IntrSys.act] at hAct
  split at hAct
  · rename_i lk hpc
    split at hAct
    · rename_i hFree
      obtain ⟨rfl, hFree⟩ := hFree
      cases hAct
      have hNew : lk ∉ (s.th (s.running c)).held := fun hMem => by
        rw [h.locks c lk hMem] at hFree
        cases hFree
      have hOk : ThreadOk (s.cpu c) { s.th (s.running c) with pc := .code, held := lk :: (s.th (s.running c)).held }
          (B (s.running c)) := by
        refine (h.run c).of_code ?_ (by simp [hpc]) rfl (h.run c).traps rfl rfl (h.run c).off
        rw [Thread.count_spinning hpc, Thread.count_code rfl]
        show (s.th (s.running c)).held.length + 1 + (s.th (s.running c)).offs = _
        omega
      rw [← IntrSys.setCpu_self { s with lock := upd s.lock lk (some c) } c]
      refine h.of_thread rfl (fun _ _ => rfl) hOk (fun lk' hlk' => ?_) (List.nodup_cons.mpr ⟨hNew, h.nodup c⟩)
        (fun lk' c' hc' hlk' => ?_) (by simp)
      · by_cases hEq : lk' = lk
        · rw [hEq, upd_self]
        · rw [upd_of_ne hEq]
          exact h.locks c lk' ((List.mem_cons.mp hlk').resolve_left hEq)
      · have hEq : lk' ≠ lk := fun hEq => by
          rw [hEq, hFree] at hlk'
          cases hlk'
        rwa [upd_of_ne hEq]
    · cases hAct
  · cases hAct

/-- A thread undoes a `push_off`: what `pop_off` returns. -/
theorem Inv.undo (h : Inv B s) {lock' : LockId → Option Nat} {s₁ : IntrSys}
    (hCount : (s.th (s.running c)).count = t.count + 1) (hpc : t.pc = .code) (hTraps : t.traps = (s.th (s.running c)).traps)
    (hLocks : ∀ lk ∈ t.held, lock' lk = some c) (hNodup : t.held.Nodup)
    (hOther : ∀ lk c', c' ≠ c → s.lock lk = some c' → lock' lk = some c')
    (hAct : ((s.cpu c).popOff.map fun k => ({ s with lock := lock' }.setCpu c k).setTh (s.running c) t) = .ok s₁) :
    Inv (upd B (s.running c) { B (s.running c) with count := (B (s.running c)).count - 1 }) s₁ ∧
      (s₁.cpu c).intr = (decide ((s.th (s.running c)).count = 1) && (s.cpu c).intena) := by
  obtain ⟨k, hPop, hNoff, hIntena, hProc, hIntr⟩ := (h.run c).popOff (by omega)
  rw [hPop] at hAct
  cases hAct
  constructor
  · refine h.of_thread hProc (fun x hx => upd_of_ne hx) ?_ hLocks hNodup hOther (by rw [hpc]; nofun)
    rw [upd_self]
    exact (h.run c).popped hCount hpc hTraps hNoff hIntena hIntr
  · show (upd s.cpu c k c).intr = _
    rw [upd_self, hIntr]

theorem Inv.popOff (h : Inv B s) {x : Tid} (hAct : s.act (.popOff c x) = some (.ok s')) :
    Inv (IntrAct.record B (.popOff c x)) s' ∧ s.running c = x ∧
      (s'.cpu c).intr = (decide ((s.th x).count = 1) && (s.cpu c).intena) := by
  rw [IntrSys.act] at hAct
  split at hAct
  · rename_i hMay
    obtain ⟨⟨rfl, hpc⟩, hPos⟩ := hMay
    have hUndo := h.undo (c := c) (t := { s.th (s.running c) with offs := (s.th (s.running c)).offs - 1 }) ?_ hpc rfl
      (h.locks c) (h.nodup c) (fun _ _ _ hlk => hlk) (Option.some.inj hAct)
    · exact ⟨hUndo.1, rfl, hUndo.2⟩
    · have hLeft : Thread.count { s.th (s.running c) with offs := (s.th (s.running c)).offs - 1 } =
          (s.th (s.running c)).held.length + ((s.th (s.running c)).offs - 1) := Thread.count_code hpc
      rw [Thread.count_code hpc, hLeft]
      omega
  · cases hAct

theorem Inv.release (h : Inv B s) {x : Tid} {lk : LockId} (hAct : s.act (.release c x lk) = some (.ok s')) :
    Inv (IntrAct.record B (.release c x lk)) s' ∧ s.running c = x ∧
      (s'.cpu c).intr = (decide ((s.th x).count = 1) && (s.cpu c).intena) := by
  rw [IntrSys.act] at hAct
  split at hAct
  · rename_i hMay
    obtain ⟨rfl, hpc, hMem⟩ := hMay
    split at hAct
    · cases hAct
    · rename_i hHolds
      rw [not_not] at hHolds
      have hUndo := h.undo (c := c)
        (t := { s.th (s.running c) with pc := .code, held := (s.th (s.running c)).held.erase lk }) ?_ rfl rfl
        (fun lk' hlk' => ?_) ((h.nodup c).erase lk) (fun lk' c' hc' hlk' => ?_) (Option.some.inj hAct)
      · exact ⟨hUndo.1, rfl, hUndo.2⟩
      · have hLen := List.length_pos_of_mem hMem
        rw [Thread.count_of_ne fun l => by rcases hpc with hpc | hpc <;> rw [hpc] <;> exact Pc.noConfusion, Thread.count_code rfl]
        show _ = ((s.th (s.running c)).held.erase lk).length + (s.th (s.running c)).offs + 1
        rw [List.length_erase_of_mem hMem]
        omega
      · obtain ⟨hne, hOld⟩ := (h.nodup c).mem_erase_iff.mp hlk'
        rw [upd_of_ne hne]
        exact h.locks c lk' hOld
      · have hne : lk' ≠ lk := fun hEq => by
          rw [hEq, hHolds] at hlk'
          exact hc' (Option.some.inj hlk').symm
        rwa [upd_of_ne hne]
  · cases hAct

theorem Inv.intrOn (h : Inv B s) {x : Tid} (hAct : s.act (.intrOn c x) = some (.ok s')) : Inv B s' := by
  rw [IntrSys.act] at hAct
  split at hAct
  · rename_i hMay
    obtain ⟨⟨rfl, hpc⟩, hZero⟩ := hMay
    cases hAct
    rw [← IntrSys.setTh_self (s.setCpu c _) (s.running c)]
    refine h.of_same_locks rfl (fun _ _ => rfl) ?_ rfl (by rw [show ((s.setCpu c _).th (s.running c)).pc = .code from hpc]; nofun)
    exact (h.run c).of_code rfl (by rw [hpc]; nofun) hpc (h.run c).traps rfl rfl fun hPos => absurd hZero (Nat.ne_of_gt hPos)
  · cases hAct

theorem Inv.intrOff (h : Inv B s) {x : Tid} (hAct : s.act (.intrOff c x) = some (.ok s')) : Inv B s' := by
  rw [IntrSys.act] at hAct
  split at hAct
  · rename_i hMay
    obtain ⟨rfl, hpc⟩ := hMay
    cases hAct
    rw [← IntrSys.setTh_self (s.setCpu c _) (s.running c)]
    refine h.of_same_locks rfl (fun _ _ => rfl) ?_ rfl (by rw [show ((s.setCpu c _).th (s.running c)).pc = .code from hpc]; nofun)
    exact (h.run c).of_code rfl (by rw [hpc]; nofun) hpc (h.run c).traps rfl rfl fun _ => rfl
  · cases hAct

theorem Inv.trap (h : Inv B s) {x : Tid} (hAct : s.act (.trap c x) = some (.ok s')) : Inv B s' := by
  rw [IntrSys.act] at hAct
  split at hAct
  · rename_i hMay
    obtain ⟨rfl, hOn⟩ := hMay
    cases hAct
    -- an interrupt finds the thread with nothing to undo
    obtain ⟨hZero, hOpen⟩ := (h.run c).enabled hOn
    have hNot : ∀ lk, (s.th (s.running c)).pc ≠ .spinning lk := fun lk hpc => by
      rw [Thread.count_spinning hpc] at hZero
      cases hZero
    refine h.of_same_locks rfl (fun _ _ => rfl) ((h.run c).of_code ?_ ?_ rfl ?_ rfl rfl fun _ => rfl) rfl nofun
    · rw [Thread.count_of_ne hNot, Thread.count_code rfl]
    · rcases hOpen with hpc | ⟨lk, hpc⟩ <;> rw [hpc] <;> nofun
    · exact List.forall_mem_cons.mpr ⟨hOpen, (h.run c).traps⟩
  · cases hAct

theorem Inv.sret (h : Inv B s) {x : Tid} (hAct : s.act (.sret c x) = some (.ok s')) : Inv B s' := by
  rw [IntrSys.act] at hAct
  split at hAct
  · rename_i pc traps hTraps
    split at hAct
    · rename_i hMay
      obtain ⟨⟨rfl, hpc⟩, hZero⟩ := hMay
      cases hAct
      have hAll := (h.run c).traps
      rw [hTraps] at hAll
      obtain ⟨hOpen, hRest⟩ := List.forall_mem_cons.mp hAll
      exact h.of_same_locks rfl (fun _ _ => rfl) ((h.run c).sret hpc hZero hOpen hRest) rfl
        (by rcases hOpen with rfl | ⟨l, rfl⟩ <;> nofun)
    · cases hAct
  · cases hAct

/-- The state of a process that does not run changes. -/
theorem Inv.of_resting (h : Inv B s) {st : ProcState} (hOld : s.state p ≠ .running)
    (hFresh : st = .used → t.pc = .forkret)
    (hReady : st = .runnable ∨ st = .sleeping → t.pc = .forkret ∨ ∃ i, Waits p t (B (.proc p)) i) (hBack : t.pc ≠ .back) :
    Inv B ({ s with state := upd s.state p st }.setTh (.proc p) t) := by
  set s' := ({ s with state := upd s.state p st } : IntrSys).setTh (.proc p) t with hs'
  have hTh : ∀ x, x ≠ Tid.proc p → s'.th x = s.th x := fun x hx => upd_of_ne hx
  have hSelf : s'.th (.proc p) = t := upd_self ..
  have hRun : ∀ c, s'.th (s.running c) = s.th (s.running c) := fun c => hTh _ (h.not_running hOld c).symm
  have hState : ∀ q, q ≠ p → s'.state q = s.state q := fun q hq => upd_of_ne hq
  have hStateP : s'.state p = st := upd_self ..
  refine ⟨fun c => ?_, fun c q hq => ?_, fun c q hq => ?_, h.one, fun q hq => ?_, fun q hq => ?_, fun c lk hlk => ?_, fun c => ?_,
    fun q => ?_⟩
  · show ThreadOk (s.cpu c) (s'.th (s.running c)) _
    rw [hRun]
    exact h.run c
  · rw [hTh (.scheduler c) nofun]
    exact h.parked c q hq
  · have hq' := h.state c q hq
    rwa [hState q fun hEq => hOld (hEq ▸ hq')]
  · by_cases hqp : q = p
    · subst hqp
      rw [hSelf]
      exact hFresh (hStateP ▸ hq)
    · rw [hState q hqp] at hq
      rw [hTh _ fun hEq => hqp (Tid.proc.inj hEq)]
      exact h.fresh q hq
  · by_cases hqp : q = p
    · subst hqp
      rw [hSelf]
      exact hReady (hStateP ▸ hq)
    · rw [hState q hqp] at hq
      rw [hTh _ fun hEq => hqp (Tid.proc.inj hEq)]
      exact h.ready q hq
  · have hlk' : lk ∈ (s'.th (s.running c)).held := hlk
    rw [hRun] at hlk'
    exact h.locks c lk hlk'
  · show (s'.th (s.running c)).held.Nodup
    rw [hRun]
    exact h.nodup c
  · by_cases hqp : q = p
    · subst hqp
      rwa [hSelf]
    · rw [hTh _ fun hEq => hqp (Tid.proc.inj hEq)]
      exact h.own q

theorem mayChange_ne {st st' : ProcState} (h : mayChange st st' = true) :
    st ≠ .running ∧ st' ≠ .sleeping := by
  cases st <;> cases st' <;> simp [mayChange] at h ⊢

theorem Inv.setState (h : Inv B s) {x : Tid} {st : ProcState} (hAct : s.act (.setState c x p st) = some (.ok s')) :
    Inv B s' := by
  rw [IntrSys.act] at hAct
  split at hAct
  · rename_i hMay
    obtain ⟨-, -, hChange⟩ := hMay
    obtain ⟨hOld, hAwake⟩ := mayChange_ne hChange
    cases hAct
    split
    · rename_i hUsed
      refine h.of_resting hOld (fun _ => rfl) (fun hBad => ?_) Pc.noConfusion
      rw [hUsed] at hBad
      rcases hBad with hBad | hBad <;> cases hBad
    · rename_i hUsed
      rw [← IntrSys.setTh_self { s with state := upd s.state p st } (.proc p)]
      refine h.of_resting hOld (fun hEq => absurd hEq hUsed) (fun hReady => ?_) (h.own p)
      -- the process was set up by `fork`, or slept
      obtain rfl := hReady.resolve_right hAwake
      cases hs : s.state p with
      | used => exact .inl (h.fresh p hs)
      | sleeping => exact h.ready p (.inr hs)
      | unused | runnable | running | zombie =>
        rw [hs] at hChange
        cases hChange
  · cases hAct

/-- CPU `c` changes between its scheduler and process `p`, whose lock it has. -/
theorem Inv.of_switch (h : Inv B s) {tp ts : Thread} {st : ProcState} (hElse : ∀ c', c' ≠ c → (s.cpu c').proc ≠ some p)
    (hBook : ∀ x, x ≠ .proc p → B' x = B x) (hUsed : st ≠ .used)
    (hReady : st = .runnable ∨ st = .sleeping → ∃ i, Waits p tp (B' (.proc p)) i)
    (hRun : k.proc = none ∧ ThreadOk k ts (B (.scheduler c)) ∧ ts.held = [.proc p] ∨
      k.proc = some p ∧ st = .running ∧ ThreadOk k tp (B' (.proc p)) ∧ tp.held = [.proc p] ∧ Parked p ts (B (.scheduler c)))
    (hLock : s.lock (.proc p) = some c) (hBack : tp.pc ≠ .back) :
    Inv B' (s.swtch c p st k tp ts) := by
  set s' := s.swtch c p st k tp ts with hs'
  have hCpu : s'.cpu c = k := upd_self ..
  have hCpu' : ∀ {c'}, c' ≠ c → s'.cpu c' = s.cpu c' := fun hc => upd_of_ne hc
  have hTs : s'.th (.scheduler c) = ts := upd_self ..
  have hTp : s'.th (.proc p) = tp := by
    show upd (upd s.th (.proc p) tp) (.scheduler c) ts (.proc p) = tp
    rw [upd_of_ne (show Tid.proc p ≠ .scheduler c from nofun), upd_self]
  have hTh : ∀ x, x ≠ .proc p → x ≠ .scheduler c → s'.th x = s.th x := fun x hp hc => (upd_of_ne hc).trans (upd_of_ne hp)
  have hState : ∀ {q}, q ≠ p → s'.state q = s.state q := fun hq => upd_of_ne hq
  have hStateP : s'.state p = st := upd_self ..
  have hRun' : ∀ {c'}, c' ≠ c → s'.running c' = s.running c' := fun hc => by
    unfold IntrSys.running
    rw [hCpu' hc]
  -- the other CPUs run other threads
  have hOther : ∀ {c'}, c' ≠ c → s.running c' ≠ .proc p ∧ s.running c' ≠ .scheduler c := fun {c'} hc =>
    ⟨fun hEq => hElse c' hc (IntrSys.running_proc.mp hEq), fun hEq => hc (IntrSys.running_scheduler.mp hEq).1.symm⟩
  have hSelf : ThreadOk k (s'.th (s'.running c)) (B' (s'.running c)) ∧ (s'.th (s'.running c)).held = [.proc p] := by
    rcases hRun with ⟨hNone, hOk, hHeld⟩ | ⟨hSome, -, hOk, hHeld, -⟩
    · rw [IntrSys.running_scheduler.mpr ⟨rfl, hCpu ▸ hNone⟩, hTs, hBook (.scheduler c) nofun]
      exact ⟨hOk, hHeld⟩
    · rw [IntrSys.running_proc.mpr (hCpu ▸ hSome), hTp]
      exact ⟨hOk, hHeld⟩
  refine ⟨fun c' => ?_, fun c' q hq => ?_, fun c' q hq => ?_, fun c₁ c₂ q h₁ h₂ => ?_, fun q hq => ?_, fun q hq => ?_,
    fun c' lk hlk => ?_, fun c' => ?_, fun q => ?_⟩
  · by_cases hc : c' = c
    · subst hc
      rw [hCpu]
      exact hSelf.1
    · rw [hRun' hc, hCpu' hc, hTh _ (hOther hc).1 (hOther hc).2, hBook _ (hOther hc).1]
      exact h.run c'
  · by_cases hc : c' = c
    · subst hc
      rw [hCpu] at hq
      rcases hRun with ⟨hNone, -⟩ | ⟨hSome, -, -, -, hParked⟩
      · rw [hNone] at hq
        cases hq
      · obtain rfl := Option.some.inj (hSome.symm.trans hq)
        rw [hTs, hBook (.scheduler c') nofun]
        exact hParked
    · rw [hCpu' hc] at hq
      rw [hTh (.scheduler c') nofun fun hEq => hc (Tid.scheduler.inj hEq), hBook (.scheduler c') nofun]
      exact h.parked c' q hq
  · by_cases hc : c' = c
    · subst hc
      rw [hCpu] at hq
      rcases hRun with ⟨hNone, -⟩ | ⟨hSome, hst, -⟩
      · rw [hNone] at hq
        cases hq
      · obtain rfl := Option.some.inj (hSome.symm.trans hq)
        rw [hStateP, hst]
    · rw [hCpu' hc] at hq
      rw [hState fun hEq => hElse c' hc (hEq ▸ hq)]
      exact h.state c' q hq
  · -- no CPU but `c` may run `p`
    have hOnly : ∀ c', (s'.cpu c').proc = some p → c' = c := fun c' hp => by
      by_contra hc
      rw [hCpu' hc] at hp
      exact hElse c' hc hp
    have hNot : ∀ {c'}, q ≠ p → (s'.cpu c').proc = some q → c' ≠ c := fun hqp hq hc => by
      rw [hc, hCpu] at hq
      rcases hRun with ⟨hNone, -⟩ | ⟨hSome, -⟩
      · rw [hNone] at hq
        cases hq
      · exact hqp (Option.some.inj (hSome.symm.trans hq)).symm
    by_cases hqp : q = p
    · subst hqp
      rw [hOnly c₁ h₁, hOnly c₂ h₂]
    · rw [hCpu' (hNot hqp h₁)] at h₁
      rw [hCpu' (hNot hqp h₂)] at h₂
      exact h.one c₁ c₂ q h₁ h₂
  · have hqp : q ≠ p := fun hEq => by
      rw [hEq, hStateP] at hq
      exact hUsed hq
    rw [hState hqp] at hq
    rw [hTh (.proc q) (fun hEq => hqp (Tid.proc.inj hEq)) nofun]
    exact h.fresh q hq
  · by_cases hqp : q = p
    · subst hqp
      rw [hStateP] at hq
      rw [hTp]
      exact .inr (hReady hq)
    · have hne : Tid.proc q ≠ .proc p := fun hEq => hqp (Tid.proc.inj hEq)
      rw [hState hqp] at hq
      rw [hTh (.proc q) hne nofun, hBook _ hne]
      exact h.ready q hq
  · by_cases hc : c' = c
    · subst hc
      rw [hSelf.2] at hlk
      rw [List.mem_singleton.mp hlk]
      exact hLock
    · rw [hRun' hc, hTh _ (hOther hc).1 (hOther hc).2] at hlk
      exact h.locks c' lk hlk
  · by_cases hc : c' = c
    · subst hc
      rw [hSelf.2]
      exact List.nodup_singleton _
    · rw [hRun' hc, hTh _ (hOther hc).1 (hOther hc).2]
      exact h.nodup c'
  · by_cases hqp : q = p
    · subst hqp
      rwa [hTp]
    · rw [hTh (.proc q) (fun hEq => hqp (Tid.proc.inj hEq)) nofun]
      exact h.own q

theorem Inv.sched (h : Inv B s) {st : ProcState} (hAct : s.act (.sched c p st) = some (.ok s')) : Inv B s' := by
  rw [IntrSys.act] at hAct
  split at hAct
  · rename_i hMay
    obtain ⟨⟨hRun, hpc⟩, hHeld, hOffs, hst⟩ := hMay
    have hp := IntrSys.running_proc.mp hRun
    have hOk := h.run c
    rw [hRun] at hOk
    have hParked := h.parked c p hp
    have hOne : (s.th (.proc p)).count = 1 := by
      rw [Thread.count_code hpc, hHeld, hOffs]
      rfl
    have hNoff : (s.cpu c).noff = 1 := by rw [hOk.noff, hOne]; rfl
    split at hAct
    · cases hAct
    · rename_i hLock
      rw [not_not] at hLock
      split at hAct
      · cases hAct
      · split at hAct
        · cases hAct
        · cases hAct
          refine h.of_switch (c := c) (p := p) (fun c' hc hEq => hc (h.one c c' p hp hEq)) (fun _ _ => rfl) ?_
            (fun _ => ⟨(s.cpu c).intena, rfl, hHeld, hOffs, hOk.traps, ?_⟩) (.inl ⟨rfl, ?_, hParked.held⟩) hLock nofun
          · rcases hst with rfl | rfl | rfl <;> nofun
          · exact Book.eq (hOk.count.trans hOne) (hOk.intena (by omega) (by rw [hpc]; nofun)).symm
          · exact hParked.back hNoff (hOk.off (by omega))
  · cases hAct

theorem Inv.swtch (h : Inv B s) {first : Bool} (hAct : s.act (.swtch c p first) = some (.ok s')) :
    Inv (IntrAct.record B (.swtch c p first)) s' := by
  unfold IntrSys.act at hAct
  dsimp only at hAct
  split at hAct
  · rename_i hMay
    obtain ⟨⟨hRun, hpc⟩, hHeld, hOffs, hTraps, hst⟩ := hMay
    have hOk := h.run c
    rw [hRun] at hOk
    have hOne : (s.th (.scheduler c)).count = 1 := by
      rw [Thread.count_code hpc, hHeld, hOffs]
      rfl
    have hElse : ∀ c', c' ≠ c → (s.cpu c').proc ≠ some p := fun c' _ hp => by
      rw [h.state c' p hp] at hst
      cases hst
    have hLock : s.lock (.proc p) = some c := h.locks c _ (by rw [hRun, hHeld]; exact List.mem_singleton_self _)
    have hParked : Parked p { s.th (.scheduler c) with pc := .away } (B (.scheduler c)) :=
      ⟨rfl, hHeld, hOffs, hTraps, hOk.count.trans hOne⟩
    have hIntena : (s.cpu c).intena = (B (.scheduler c)).base := hOk.intena (by omega) (by rw [hpc]; nofun)
    have hNoff : (s.cpu c).noff = 1 := by rw [hOk.noff, hOne]; rfl
    have hOff : (s.cpu c).intr = false := hOk.off (by omega)
    split at hAct
    · cases hAct
      refine h.of_switch hElse (fun x hx => upd_of_ne hx) nofun (fun hBad => by rcases hBad with hBad | hBad <;> cases hBad)
        (.inr ⟨rfl, rfl, ?_, rfl, hParked⟩) hLock nofun
      rw [IntrAct.record, upd_self, ← hIntena]
      exact ThreadOk.of_lock rfl rfl rfl nofun hNoff hOff
    · rename_i i hProc
      cases hAct
      -- it waits in `sched`
      obtain ⟨i', hWaits⟩ := (h.ready p (.inl hst)).resolve_left (by rw [hProc]; nofun)
      obtain rfl : i = i' := Pc.switched.inj (hProc.symm.trans hWaits.pc)
      refine h.of_switch hElse (fun _ _ => rfl) nofun (fun hBad => by rcases hBad with hBad | hBad <;> cases hBad)
        (.inr ⟨rfl, rfl, ?_, hWaits.held, hParked⟩) hLock nofun
      rw [show IntrAct.record B (.swtch c p false) (.proc p) = B (.proc p) from rfl, hWaits.book]
      exact ThreadOk.of_lock rfl hWaits.held hWaits.offs hWaits.traps hNoff hOff
    · cases hAct
  · cases hAct

theorem Inv.step (h : Inv B s) (hAct : s.act a = some (.ok s')) : Inv (a.record B) s' := by
  cases a with
  | intrGet c x lk => exact h.intrGet hAct
  | pushOff c x old => exact h.pushOff hAct
  | take c x => exact h.take hAct
  | popOff c x => exact (h.popOff hAct).1
  | release c x lk => exact (h.release hAct).1
  | intrOn c x => exact h.intrOn hAct
  | intrOff c x => exact h.intrOff hAct
  | trap c x => exact h.trap hAct
  | sret c x => exact h.sret hAct
  | setState c x p st => exact h.setState hAct
  | sched c p st => exact h.sched hAct
  | swtch c p first => exact h.swtch hAct

theorem inv_initial : Inv (ledger []) .initial where
  run c := ⟨rfl, fun hPos => absurd hPos (Nat.lt_irrefl 0), rfl, fun hPos => absurd hPos (Nat.lt_irrefl 0), nofun, nofun,
    ⟨nofun, nofun, nofun⟩, nofun⟩
  parked c p := nofun
  state c p := nofun
  one c c' p := nofun
  fresh p := nofun
  ready p hp := by rcases hp with hp | hp <;> cases hp
  locks c := nofun
  nodup c := List.nodup_nil
  own p := nofun

theorem inv_run {tr : List IntrAct} (h : intrLts.Run tr s) : Inv (ledger tr) s :=
  h.invariant (I := fun tr s => Inv (ledger tr) s) (by rintro _ rfl; exact inv_initial) fun tr s a s' _ hInv hStep => by
    rw [ledger, List.foldl_append]
    exact hInv.step hStep

/-! ## Results -/

/-- `pop_off` does not panic. -/
theorem Inv.popOff_ne (h : Inv B s) {e : IntrPanic} {f : Cpu → IntrSys} (hPos : 0 < (s.th (s.running c)).count) :
    (s.cpu c).popOff.map f ≠ .error e := by
  obtain ⟨k, hPop, -⟩ := (h.run c).popOff hPos
  rw [hPop]
  nofun

/-- The only panic is that of a thread that acquires a lock it holds. -/
theorem Inv.panic (h : Inv B s) {e : IntrPanic} (hAct : s.act a = some (.error e)) : e = .acquire := by
  unfold IntrSys.act at hAct
  cases a with
  | pushOff c x old =>
    dsimp only at hAct
    split at hAct
    · split at hAct
      · split at hAct
        · cases hAct
        · split at hAct
          · cases hAct
            rfl
          · cases hAct
      · cases hAct
    · cases hAct
  | popOff c x =>
    dsimp only at hAct
    split at hAct
    · rename_i hMay
      obtain ⟨⟨rfl, hpc⟩, hPos⟩ := hMay
      refine absurd (Option.some.inj hAct) (h.popOff_ne ?_)
      rw [Thread.count_code hpc]
      omega
    · cases hAct
  | release c x lk =>
    dsimp only at hAct
    split at hAct
    · rename_i hMay
      obtain ⟨rfl, hpc, hMem⟩ := hMay
      split at hAct
      · rename_i hNot
        exact absurd (h.locks c lk hMem) hNot
      · have hLen := List.length_pos_of_mem hMem
        refine absurd (Option.some.inj hAct) (h.popOff_ne ?_)
        unfold Thread.count
        omega
    · cases hAct
  | sched c p st =>
    dsimp only at hAct
    split at hAct
    · rename_i hMay
      obtain ⟨⟨hRun, hpc⟩, hHeld, hOffs, -⟩ := hMay
      have hOk := h.run c
      rw [hRun] at hOk
      have hOne : (s.th (.proc p)).count = 1 := by
        rw [Thread.count_code hpc, hHeld, hOffs]
        rfl
      split at hAct
      · rename_i hNot
        exact absurd (h.locks c _ (by rw [hRun, hHeld]; exact List.mem_singleton_self _)) hNot
      · split at hAct
        · rename_i hNoff
          exact absurd (by rw [hOk.noff, hOne]; rfl) hNoff
        · split at hAct
          · rename_i hOn
            rw [hOk.off (by omega)] at hOn
            cases hOn
          · cases hAct
    · cases hAct
  | intrGet | intrOn | intrOff | trap | setState =>
    dsimp only at hAct
    split at hAct <;> cases hAct
  | take | sret | swtch =>
    dsimp only at hAct
    split at hAct
    · split at hAct <;> cases hAct
    · cases hAct

/-- Undoing the last `push_off` enables interrupts if they were enabled at the first. -/
theorem Inv.undo_last (h : Inv B s) (hUndoes : a.undoes = some (c, .proc p)) (hAct : s.act a = some (.ok s'))
    (hOne : (B (.proc p)).count = 1) : (s'.cpu c).intr = (B (.proc p)).base := by
  have hFlag : s.running c = .proc p ∧
      (s'.cpu c).intr = (decide ((s.th (.proc p)).count = 1) && (s.cpu c).intena) := by
    cases a with
    | popOff c' x =>
      cases hUndoes
      exact (h.popOff hAct).2
    | release c' x lk =>
      cases hUndoes
      exact (h.release hAct).2
    | _ => cases hUndoes
  obtain ⟨hRun, hIntr⟩ := hFlag
  have hOk := h.run c
  rw [hRun] at hOk
  have hCount : (s.th (.proc p)).count = 1 := hOk.count.symm.trans hOne
  rw [hIntr, decide_eq_true hCount, Bool.true_and]
  exact hOk.intena (by omega) (h.own p)

/-- What `push_off` has read is still the flag when it clears it, even if there was an interrupt in between. -/
theorem Inv.pushOff_old (h : Inv B s) {x : Tid} {old : Bool} (hAct : s.act (.pushOff c x old) = some (.ok s')) :
    s.running c = x ∧ old = (s.cpu c).intr := by
  rw [IntrSys.act] at hAct
  split at hAct
  · rename_i old' lk hpc
    split at hAct
    · rename_i hRun
      obtain ⟨rfl, rfl⟩ := hRun
      exact ⟨rfl, (h.run c).pushing old lk hpc⟩
    · cases hAct
  · cases hAct

/-- In every state that is reached: interrupts are off on a CPU where `noff` is not zero; `noff` is the number of `push_off`s
that the thread running there has not undone; `push_off` saves the flag as it is when it clears it; when a process undoes its last
`push_off`, interrupts are enabled afterwards if and only if they were enabled for it at the one that raised its count from 0; and
there is no panic but that of a thread that acquires a lock which its CPU holds. -/
theorem interrupts_follow {tr : List IntrAct} (h : intrLts.Run tr s) :
    (∀ c, 0 < (s.cpu c).noff → (s.cpu c).intr = false) ∧
    (∀ c, (s.cpu c).noff = (ledger tr (s.running c)).count) ∧
    (∀ c x old s', intrLts.step s (.pushOff c x old) = some (.ok s') → s.running c = x ∧ old = (s.cpu c).intr) ∧
    (∀ a c p s', intrLts.step s a = some (.ok s') → a.undoes = some (c, .proc p) → (ledger tr (.proc p)).count = 1 →
      (s'.cpu c).intr = (ledger tr (.proc p)).base) ∧
    ∀ a e, intrLts.step s a = some (.error e) → e = .acquire := by
  have hInv := inv_run h
  refine ⟨fun c hPos => (hInv.run c).off ?_, fun c => ?_, fun c x old s' hStep => hInv.pushOff_old hStep,
    fun a c p s' hStep hUndoes => hInv.undo_last hUndoes hStep, fun a e hStep => hInv.panic hStep⟩
  · rw [(hInv.run c).noff] at hPos
    omega
  · rw [(hInv.run c).noff, (hInv.run c).count]

/-- A scheduler with interrupts on sets up the first process and switches to it. -/
def firstRun : List IntrAct :=
  [.intrOn 0 (.scheduler 0), .intrGet 0 (.scheduler 0) (some (.proc 0)), .pushOff 0 (.scheduler 0) true, .take 0 (.scheduler 0),
    .setState 0 (.scheduler 0) 0 .used, .setState 0 (.scheduler 0) 0 .runnable, .swtch 0 0 true]

/-- Interrupts are on once the process has released its lock in `forkret`. -/
theorem interrupts_follow_firstRun : ∃ s s', intrLts.Run firstRun s ∧
    intrLts.step s (.release 0 (.proc 0) (.proc 0)) = some (.ok s') ∧ (s.cpu 0).noff = 1 ∧ (s'.cpu 0).intr = true := by
  obtain ⟨s, s', hExec, hStep, hProc⟩ : ∃ s s', intrLts.exec .initial firstRun = some s ∧
      intrLts.step s (.release 0 (.proc 0) (.proc 0)) = some (.ok s') ∧ s.running 0 = .proc 0 := ⟨_, _, rfl, rfl, rfl⟩
  have hRun := Lts.run_of_exec (Lts.Run.start (M := intrLts) rfl) hExec
  obtain ⟨-, hNoff, -, hLast, -⟩ := interrupts_follow hRun
  refine ⟨s, s', hRun, hStep, ?_, hLast _ 0 0 s' hStep rfl rfl⟩
  rw [hNoff, hProc]
  rfl

end Xv6.Intr
