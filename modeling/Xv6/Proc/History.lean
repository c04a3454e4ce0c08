import Xv6.Proc.Wait

/-!
# xv6 — what happens to a process over a run

A run is seen as the sequence of its labels, among them who forked which slot under which pid, who
exited with which status and which `wait` returned it. The invariant `HistInv` says that the process
table agrees with this history. Results:

* `process_family` — parents of live processes, delivery of exit statuses, reuse of slots, pids and
  sleepers in `wait`.
-/

namespace Xv6

variable {c i nproc p : Nat} {op : KOp} {h h' : Shared} {k : Code} {s : KSys}

/-! ## Histories -/

def pendingStep (i : Nat) (x : Option (BitVec 32 × Int)) : Nat × KOp → Option (BitVec 32 × Int)
  | (_, .exited p pid status) => if p = i then some (pid, status) else x
  | (_, .deliver _ j _ _) => if j = i then none else x
  | _ => x

/-- The pid and status of the process that exited in slot `i` and was not yet returned by `wait`. -/
def pendingExit (tr : List (Nat × KOp)) (i : Nat) : Option (BitVec 32 × Int) :=
  tr.foldl (pendingStep i) none

def forkedByStep (i : Nat) (x : Option Nat) : Nat × KOp → Option Nat
  | (_, .alloc p j _) => if j = i then some p else x
  | _ => x

/-- The process that called `fork` for the process in slot `i`. -/
def forkedBy (tr : List (Nat × KOp)) (i : Nat) : Option Nat := tr.foldl (forkedByStep i) none

def KOp.allocates : KOp → Bool
  | .alloc .. => true
  | _ => false

/-- How often `allocpid` was called, by `userinit` and in `fork`. -/
def allocpids (tr : List (Nat × KOp)) : Nat := 1 + tr.countP fun a => a.2.allocates

/-- Labels that are not part of these histories. -/
def KOp.silent : KOp → Bool
  | .alloc .. | .exited .. | .deliver .. => false
  | _ => true

section Append

variable (tr : List (Nat × KOp)) (a : Nat × KOp) (i : Nat)

@[simp] theorem pendingExit_append : pendingExit (tr ++ [a]) i = pendingStep i (pendingExit tr i) a := by
  simp [pendingExit]

@[simp] theorem forkedBy_append : forkedBy (tr ++ [a]) i = forkedByStep i (forkedBy tr i) a := by
  simp [forkedBy]

@[simp] theorem allocpids_append : allocpids (tr ++ [a]) = allocpids tr + if a.2.allocates then 1 else 0 := by
  simp [allocpids, List.countP_cons, Nat.add_assoc]

end Append

theorem pendingStep_silent (h : op.silent = true) (i : Nat)
    (x : Option (BitVec 32 × Int)) : pendingStep i x (c, op) = x := by
  cases op <;> first | rfl | cases h

theorem KOp.not_allocates_of_silent (h : op.silent = true) : op.allocates = false := by
  cases op <;> first | rfl | cases h

theorem forkedBy_append_of_not (h : op.allocates = false) (tr : List (Nat × KOp)) (c i : Nat) :
    forkedBy (tr ++ [(c, op)]) i = forkedBy tr i := by
  rw [forkedBy_append]
  cases op <;> first | rfl | cases h

theorem allocpids_append_of_not (h : op.allocates = false) (tr : List (Nat × KOp)) (c : Nat) :
    allocpids (tr ++ [(c, op)]) = allocpids tr := by
  rw [allocpids_append, h]
  rfl

/-! ## What a step does to pids and statuses -/

/-- No process is allocated, exits or is freed by `wait`. -/
structure RecordSame (h h' : Shared) : Prop where
  kept    : ∀ q, (h'.proc q).state ≠ .unused → (h.proc q).state ≠ .unused ∧
    (h'.proc q).pid = (h.proc q).pid ∧ (h'.proc q).xstate = (h.proc q).xstate
  zombie  : ∀ q, (h.proc q).state = .zombie → (h'.proc q).state = .zombie
  nextpid : h'.nextpid = h.nextpid

theorem RecordSame.refl (hProc : h'.proc = h.proc) (hNext : h'.nextpid = h.nextpid) :
    RecordSame h h' where
  kept q hq := by
    rw [hProc] at hq ⊢
    exact ⟨hq, rfl, rfl⟩
  zombie q hq := by rwa [hProc]
  nextpid := hNext

theorem RecordSame.one {b : Pcb} (hProc : h'.proc = upd h.proc i b)
    (hNext : h'.nextpid = h.nextpid)
    (hKept : b.state ≠ .unused → (h.proc i).state ≠ .unused ∧ b.pid = (h.proc i).pid ∧
      b.xstate = (h.proc i).xstate)
    (hZombie : (h.proc i).state = .zombie → b.state = .zombie) : RecordSame h h' where
  kept q hq := by
    rw [hProc] at hq ⊢
    by_cases hqi : q = i
    · subst hqi
      rw [upd_self] at hq ⊢
      exact hKept hq
    · rw [upd_of_ne hqi] at hq ⊢
      exact ⟨hq, rfl, rfl⟩
  zombie q hq := by
    rw [hProc]
    by_cases hqi : q = i
    · subst hqi
      rw [upd_self]
      exact hZombie hq
    · rwa [upd_of_ne hqi]
  nextpid := hNext

theorem Pcb.wakeup_record (b : Pcb) (ch : Option Chan) : ((b.wakeup ch).state ≠ .unused →
    b.state ≠ .unused ∧ (b.wakeup ch).pid = b.pid ∧ (b.wakeup ch).xstate = b.xstate) ∧
    (b.state = .zombie → (b.wakeup ch).state = .zombie) := by
  unfold Pcb.wakeup
  split
  · rename_i h
    simp [h.1]
  · exact ⟨fun hb => ⟨hb, rfl, rfl⟩, id⟩

theorem Pcb.kill_record (b : Pcb) : (b.kill.state ≠ .unused →
    b.state ≠ .unused ∧ b.kill.pid = b.pid ∧ b.kill.xstate = b.xstate) ∧
    (b.state = .zombie → b.kill.state = .zombie) := by
  unfold Pcb.kill
  split
  · rename_i h
    simp [h]
  · exact ⟨fun hb => ⟨hb, rfl, rfl⟩, id⟩

theorem ClientMove.record {me : Option Nat} {k' : Code}
    (hMove : ClientMove nproc c me h k op h' k') : op.silent = true ∧ RecordSame h h' := by
  cases hMove with
  | @wakeTest ch i =>
    have hb := (h.proc i).wakeup_record ch
    exact ⟨rfl, .one rfl rfl hb.1 hb.2⟩
  | _ => exact ⟨rfl, .refl rfl rfl⟩

theorem ProcMove.record {k' : Code}
    (hMove : ProcMove nproc c p h k op h' k') (hKid : ∀ i, k.child = some i → (h.proc i).state = .used) :
    op.silent = true ∧ RecordSame h h' ∨
      ∃ i, op = .deliver p i (h.proc i).pid (h.proc i).xstate ∧ k = .wait3 i ∧
        (h.proc i).state = .zombie ∧ h'.proc = upd h.proc i Pcb.free ∧ h'.nextpid = h.nextpid := by
  cases hMove with
  | @sleepRelease x => cases x <;> exact Or.inl ⟨rfl, .refl rfl rfl⟩
  | sleepTidy | forkParent | exitReparent => exact Or.inl ⟨rfl, .one rfl rfl (fun hb => ⟨hb, rfl, rfl⟩) id⟩
  | @killHit pid i =>
    have hb := (h.proc i).kill_record
    exact Or.inl ⟨rfl, .one rfl rfl hb.1 hb.2⟩
  | @forkFail i =>
    refine Or.inl ⟨rfl, .one rfl rfl (fun hb => absurd rfl hb) fun hb => ?_⟩
    rw [hKid i rfl] at hb
    cases hb
  | @forkDone i =>
    have hUsed := hKid i rfl
    refine Or.inl ⟨rfl, .one rfl rfl (fun _ => ⟨?_, rfl, rfl⟩) fun hb => ?_⟩
    · simp [hUsed]
    · simp [hUsed] at hb
  | @waitDeliver i hState => exact Or.inr ⟨i, rfl, rfl, hState, rfl, rfl⟩
  | client hMove => exact Or.inl hMove.record
  | _ => exact Or.inl ⟨rfl, .refl rfl rfl⟩

/-! ## The invariant -/

/-- Pids are numbered from 1, as long as `allocpid` has not come to the end of `int`. -/
structure PidInv (n : Nat) (h : Shared) : Prop where
  nextpid  : h.nextpid.toNat = n + 1
  bounded  : ∀ q, (h.proc q).state ≠ .unused → (h.proc q).pid.toNat < n + 1
  distinct : ∀ q r, (h.proc q).state ≠ .unused → (h.proc r).state ≠ .unused →
    (h.proc q).pid = (h.proc r).pid → q = r

structure HistInv (tr : List (Nat × KOp)) (s : KSys) : Prop where
  pending : ∀ i, pendingExit tr i =
    if (s.sh.proc i).state = .zombie then some ((s.sh.proc i).pid, (s.sh.proc i).xstate) else none
  forker  : ∀ p i, (s.th p).code.child = some i → forkedBy tr i = some p
  parent  : ∀ i r, (s.sh.proc i).parent = some r → r = initproc ∨ forkedBy tr i = some r
  pids    : allocpids tr < 2 ^ 31 - 1 → PidInv (allocpids tr) s.sh

theorem PidInv.of_kept {n : Nat} (hPid : PidInv n h)
    (hKept : ∀ q, (h'.proc q).state ≠ .unused → (h.proc q).state ≠ .unused ∧
      (h'.proc q).pid = (h.proc q).pid) (hNext : h'.nextpid = h.nextpid) : PidInv n h' where
  nextpid := by rw [hNext, hPid.nextpid]
  bounded q hq := by
    obtain ⟨hOld, hSame⟩ := hKept q hq
    rw [hSame]
    exact hPid.bounded q hOld
  distinct q r hq hr hEq := by
    obtain ⟨hOldq, hSameq⟩ := hKept q hq
    obtain ⟨hOldr, hSamer⟩ := hKept r hr
    exact hPid.distinct q r hOldq hOldr (hSameq.symm.trans (hEq.trans hSamer))

/-- A new process gets the next pid. -/
theorem PidInv.alloc {n : Nat} (hPid : PidInv n h) (hn : n + 2 < 2 ^ 32)
    (hProc : ∀ q, q ≠ i → h'.proc q = h.proc q) (hNew : (h'.proc i).pid = h.nextpid)
    (hNext : h'.nextpid = h.nextpid + 1) : PidInv (n + 1) h' where
  nextpid := by
    have hOne : (1 : BitVec 32).toNat = 1 := rfl
    rw [hNext, BitVec.toNat_add, hPid.nextpid, hOne]
    omega
  bounded q hq := by
    by_cases hqi : q = i
    · rw [hqi, hNew, hPid.nextpid]
      omega
    · rw [hProc q hqi] at hq ⊢
      exact Nat.lt_succ_of_lt (hPid.bounded q hq)
  distinct q r hq hr hEq := by
    have hFresh : ∀ q, q ≠ i → (h'.proc q).state ≠ .unused → (h'.proc q).pid ≠ h.nextpid := by
      intro q hqi hq hEq
      rw [hProc q hqi] at hq hEq
      have := hPid.bounded q hq
      rw [hEq, hPid.nextpid] at this
      omega
    by_cases hqi : q = i
    · by_cases hri : r = i
      · rw [hqi, hri]
      · rw [hqi, hNew] at hEq
        exact absurd hEq.symm (hFresh r hri hr)
    · by_cases hri : r = i
      · rw [hri, hNew] at hEq
        exact absurd hEq (hFresh q hqi hq)
      · rw [hProc q hqi] at hq hEq
        rw [hProc r hri] at hr hEq
        exact hPid.distinct q r hq hr hEq

/-- A step with a label that is not part of the histories. -/
theorem HistInv.silent {tr : List (Nat × KOp)} {s' : KSys} (h : HistInv tr s)
    (hOp : op.silent = true) (hRec : RecordSame s.sh s'.sh)
    (hZombie : ∀ q, (s'.sh.proc q).state = .zombie → (s.sh.proc q).state = .zombie)
    (hChild : ∀ p i, (s'.th p).code.child = some i → (s.th p).code.child = some i)
    (hParent : ∀ i r, (s'.sh.proc i).parent = some r →
      (s.sh.proc i).parent = some r ∨ r = initproc ∨ (s.th r).code.child = some i) :
    HistInv (tr ++ [(c, op)]) s' where
  pending i := by
    rw [pendingExit_append, pendingStep_silent hOp, h.pending]
    by_cases hOld : (s.sh.proc i).state = .zombie
    · have hNew := hRec.zombie i hOld
      obtain ⟨-, hPid, hStatus⟩ := hRec.kept i (by simp [hNew])
      rw [if_pos hOld, if_pos hNew, hPid, hStatus]
    · rw [if_neg hOld, if_neg fun hNew => hOld (hZombie i hNew)]
  forker p i hi := by
    rw [forkedBy_append_of_not (KOp.not_allocates_of_silent hOp)]
    exact h.forker p i (hChild p i hi)
  parent i r hr := by
    rw [forkedBy_append_of_not (KOp.not_allocates_of_silent hOp)]
    rcases hParent i r hr with hOld | hInit | hKid
    · exact h.parent i r hOld
    · exact Or.inl hInit
    · exact Or.inr (h.forker r i hKid)
  pids hn := by
    rw [allocpids_append_of_not (KOp.not_allocates_of_silent hOp)] at hn ⊢
    exact (h.pids hn).of_kept (fun q hq => ⟨(hRec.kept q hq).1, (hRec.kept q hq).2.1⟩) hRec.nextpid

/-- Parents after a step of process `p`. -/
theorem KinEff.parents {k' : Code} (hKin : KinEff p h k h' k') {r : Nat}
    (hr : (h'.proc i).parent = some r) :
    (h.proc i).parent = some r ∨ r = initproc ∨ r = p ∧ k.child = some i := by
  cases hKin with
  | same hSame => exact Or.inl ((hSame.parent i).symm.trans hr)
  | @link j hk _ hProc =>
    rw [hProc] at hr
    by_cases hij : i = j
    · subst hij
      rw [upd_self] at hr
      exact Or.inr (Or.inr ⟨(Option.some.inj hr).symm, by rw [hk]; rfl⟩)
    · rw [upd_of_ne hij] at hr
      exact Or.inl hr
  | @reparent j _ _ _ _ hProc =>
    rw [hProc] at hr
    by_cases hij : i = j
    · subst hij
      rw [upd_self] at hr
      exact Or.inr (Or.inl (Option.some.inj hr).symm)
    · rw [upd_of_ne hij] at hr
      exact Or.inl hr
  | @reap j _ _ _ hProc =>
    rw [hProc] at hr
    by_cases hij : i = j
    · subst hij
      rw [upd_self] at hr
      cases hr
    · rw [upd_of_ne hij] at hr
      exact Or.inl hr

/-- Children in the making after a step of process `p`. -/
theorem child_setTh {t : KThread}
    (hKid : t.code.child = none ∨ t.code.child = (s.th p).code.child) {q : Nat}
    (hi : (upd s.th p t q).code.child = some i) : (s.th q).code.child = some i := by
  by_cases hq : q = p
  · subst hq
    rw [upd_self] at hi
    rcases hKid with hNone | hSame
    · rw [hNone] at hi
      cases hi
    · exact hSame.symm.trans hi
  · rwa [upd_of_ne hq] at hi

theorem HistInv.run {tr : List (Nat × KOp)} (hHist : HistInv tr s) (hInv : SchedInv s) (hRange : RangeInv nproc s)
    (hFam : FamilyInv s) (hMove : ProcMove nproc c p s.sh (s.th p).code op h k) :
    HistInv (tr ++ [(c, op)]) ({ s with sh := h }.setTh p { s.th p with code := k }) := by
  have hEff := hMove.eff (hInv.codeP p) (hInv.kid p)
  have hKin := hMove.kin (hInv.codeP p) (hInv.kid p) (hFam.unlinked p)
    fun _ => hFam.outside hRange
  have hChild : ∀ q i, ((KSys.setTh { s with sh := h } p { s.th p with code := k }).th q).code.child =
      some i → (s.th q).code.child = some i := fun q i =>
    child_setTh (t := { s.th p with code := k }) (hEff.kid.imp id And.left)
  have hParent : ∀ i r, (h.proc i).parent = some r →
      (s.sh.proc i).parent = some r ∨ r = initproc ∨ (s.th r).code.child = some i := fun i r hr => by
    rcases hKin.parents hr with hOld | hInit | ⟨rfl, hKid⟩
    · exact Or.inl hOld
    · exact Or.inr (Or.inl hInit)
    · exact Or.inr (Or.inr hKid)
  rcases hMove.record (hInv.kid p) with ⟨hOp, hRec⟩ | ⟨i, rfl, -, hZombie, hProc, hNext⟩
  · exact hHist.silent hOp hRec (fun q => hEff.state.zombie) hChild hParent
  · have hOther : ∀ q, q ≠ i → h.proc q = s.sh.proc q := fun q hq => by rw [hProc, upd_of_ne hq]
    have hFree : h.proc i = Pcb.free := by rw [hProc, upd_self]
    refine ⟨fun j => ?_, fun q j hj => ?_, fun j r hr => ?_, fun hn => ?_⟩
    · rw [pendingExit_append, pendingStep, hHist.pending]
      by_cases hij : i = j
      · subst hij
        rw [if_pos rfl, KSys.setTh_sh, hFree]
        rfl
      · rw [if_neg hij, KSys.setTh_sh, hOther j (Ne.symm hij)]
    · rw [forkedBy_append_of_not rfl]
      exact hHist.forker q j (hChild q j hj)
    · rw [forkedBy_append_of_not rfl]
      rcases hParent j r hr with hOld | hInit | hKid
      · exact hHist.parent j r hOld
      · exact Or.inl hInit
      · exact Or.inr (hHist.forker r j hKid)
    · rw [allocpids_append_of_not rfl] at hn ⊢
      refine (hHist.pids hn).of_kept (fun q hq => ?_) hNext
      have hqi : q ≠ i := fun hqi => hq (by rw [KSys.setTh_sh, hqi, hFree]; rfl)
      rw [KSys.setTh_sh, hOther q hqi] at hq ⊢
      exact ⟨hq, rfl⟩

theorem HistInv.sched {tr : List (Nat × KOp)}
    (hHist : HistInv tr s) (hInv : SchedInv s) (hState : (s.sh.proc p).state = .running)
    (hMove : SchedMove p s.sh (s.th p).code op h k) :
    HistInv (tr ++ [(c, op)]) ({ s with sh := h }.setTh p { code := k, sw := .saving }) := by
  have hChild : ∀ q i, ((KSys.setTh { s with sh := h } p { code := k, sw := .saving }).th q).code.child =
      some i → (s.th q).code.child = some i := fun q i =>
    child_setTh (t := { code := k, sw := .saving }) (hMove.eff (hInv.codeP p)).2.2.2.2
  obtain ⟨b, hProc, hParentP, -⟩ := hMove.kin
  have hOther : ∀ q, q ≠ p → h.proc q = s.sh.proc q := fun q hq => by rw [hProc, upd_of_ne hq]
  have hParent : ∀ i r, (h.proc i).parent = some r → (s.sh.proc i).parent = some r := fun i r hr => by
    by_cases hip : i = p
    · subst hip
      rw [hProc, upd_self, hParentP] at hr
      exact hr
    · rwa [hOther i hip] at hr
  generalize (s.th p).code = k₀ at hMove
  cases hMove with
  | sleep | yield =>
    refine hHist.silent rfl (.one rfl rfl (fun _ => ⟨?_, rfl, rfl⟩) fun hb => ?_) (fun q hq => ?_) hChild
      fun i r hr => Or.inl (hParent i r hr)
    · simp [hState]
    · simp [hState] at hb
    · by_cases hqp : q = p
      · simp [hqp] at hq
      · simpa [hqp] using hq
  | exit =>
    refine ⟨fun j => ?_, fun q j hj => ?_, fun j r hr => ?_, fun hn => ?_⟩
    · rw [pendingExit_append, pendingStep, hHist.pending]
      by_cases hpj : p = j
      · subst hpj
        simp
      · rw [if_neg hpj, KSys.setTh_sh, hOther j (Ne.symm hpj)]
    · rw [forkedBy_append_of_not rfl]
      exact hHist.forker q j (hChild q j hj)
    · rw [forkedBy_append_of_not rfl]
      exact hHist.parent j r (hParent j r hr)
    · rw [allocpids_append_of_not rfl] at hn ⊢
      refine (hHist.pids hn).of_kept (fun q hq => ?_) rfl
      by_cases hqp : q = p
      · subst hqp
        simp [hState]
      · rw [KSys.setTh_sh, hOther q hqp] at hq ⊢
        exact ⟨hq, rfl⟩

theorem HistInv.alloc {tr : List (Nat × KOp)} (hHist : HistInv tr s)
    (hInv : SchedInv s) (hFam : FamilyInv s) (hCode : (s.th p).code = .fork2 i)
    (hState : (s.sh.proc i).state = .unused) :
    HistInv (tr ++ [(c, .alloc p i s.sh.nextpid)]) (s.allocated p i) := by
  have hst : (s.allocated p i).sh.proc =
      upd s.sh.proc i { s.sh.proc i with pid := s.sh.nextpid, state := .used } := rfl
  have hOther : ∀ q, q ≠ i → (s.allocated p i).sh.proc q = s.sh.proc q := fun q hq => by
    rw [hst, upd_of_ne hq]
  have hForked : ∀ j, j ≠ i → forkedBy (tr ++ [(c, KOp.alloc p i s.sh.nextpid)]) j = forkedBy tr j :=
    fun j hj => by rw [forkedBy_append, forkedByStep, if_neg (Ne.symm hj)]
  refine ⟨fun j => ?_, fun q j hj => ?_, fun j r hr => ?_, fun hn => ?_⟩
  · rw [pendingExit_append]
    change pendingExit tr j = _
    rw [hHist.pending]
    by_cases hji : j = i
    · subst hji
      simp [hst, hState]
    · rw [hOther j hji]
  · by_cases hqp : q = p
    · subst hqp
      obtain rfl : i = j := by simpa [KSys.allocated, Code.child] using hj
      rw [forkedBy_append, forkedByStep, if_pos rfl]
    · have hOld : (s.th q).code.child = some j := by
        by_cases hqi : q = i
        · subst hqi
          simp [KSys.allocated, hqp, Code.child] at hj
        · simpa [KSys.allocated, hqp, hqi] using hj
      have hji : j ≠ i := fun hji => by
        have := hInv.kid q j hOld
        rw [hji, hState] at this
        cases this
      rw [hForked j hji]
      exact hHist.forker q j hOld
  · have hOld : (s.sh.proc j).parent = some r := by
      by_cases hji : j = i
      · subst hji
        simpa [hst] using hr
      · rwa [hOther j hji] at hr
    have hji : j ≠ i := fun hji => by
      rw [hji, hFam.unused i hState] at hOld
      cases hOld
    rw [hForked j hji]
    exact hHist.parent j r hOld
  · rw [allocpids_append] at hn ⊢
    simp only [KOp.allocates, if_true] at hn ⊢
    exact (hHist.pids (by omega)).alloc (by omega) hOther (by simp [hst]) rfl

theorem HistInv.move {tr : List (Nat × KOp)} {s' : KSys}
    (h : HistInv tr s) (hInv : SchedInv s) (hRange : RangeInv nproc s) (hFam : FamilyInv s)
    (hMove : KMove nproc s c op s') : HistInv (tr ++ [(c, op)]) s' := by
  cases hMove with
  | wrap | grab | pass | back =>
    exact h.silent rfl (.refl rfl rfl) (fun _ => id) (fun _ _ => id) fun _ _ => Or.inl
  | @pick i _ _ hState =>
    refine h.silent rfl (.one rfl rfl (fun _ => ⟨?_, rfl, rfl⟩) fun hb => ?_) (fun q hq => ?_)
      (fun _ _ => id) fun j r hr => Or.inl ?_
    · simp [hState]
    · simp [hState] at hb
    · by_cases hqi : q = i
      · simp [hqi] at hq
      · simpa [hqi] using hq
    · by_cases hji : j = i
      · subst hji
        simpa using hr
      · simpa [hji] using hr
  | @resume i =>
    exact h.silent rfl (.refl rfl rfl) (fun _ => id)
      (fun _ _ => child_setTh (t := { s.th i with sw := .run }) (Or.inr rfl)) fun _ _ => Or.inl
  | irq _ hMove =>
    obtain ⟨hOp, hRec⟩ := hMove.record
    have hKin := hMove.kin (p := 0) (Or.inr (hInv.codeS c))
    exact h.silent hOp hRec (fun _ => (hMove.eff (Or.inr (hInv.codeS c)) none).state.zombie)
      (fun _ _ => id) fun i r hr => Or.inl ((hKin.parent i).symm.trans hr)
  | @exit p status =>
    exact h.silent rfl (.refl rfl rfl) (fun _ => id)
      (fun _ _ => child_setTh (t := { s.th p with code := .exit1 status }) (Or.inl rfl)) fun _ _ => Or.inl
  | alloc _ _ hCode hState => exact h.alloc hInv hFam hCode hState
  | sched hOn hSw hMove _ _ => exact h.sched hInv (hInv.engaged_run hOn hSw).1 hMove
  | proc _ _ hMove => exact h.run hInv hRange hFam hMove
  | @save p =>
    exact h.silent rfl (.refl rfl rfl) (fun _ => id)
      (fun _ _ => child_setTh (t := { s.th p with sw := .leaving }) (Or.inr rfl)) fun _ _ => Or.inl
  | @leave p =>
    exact h.silent rfl (.refl rfl rfl) (fun _ => id)
      (fun _ _ => child_setTh (t := { s.th p with sw := .off }) (Or.inr rfl)) fun _ _ => Or.inl

theorem histInv_initial (cond : Nat × Nat → Bool) : HistInv [] (KSys.initial cond) := by
  have hProc : (KSys.initial cond).sh.proc =
      upd (fun _ => Pcb.free) initproc { Pcb.free with state := .runnable, pid := 1 } := rfl
  have hLive : ∀ q, ((KSys.initial cond).sh.proc q).state ≠ .unused → q = initproc := fun q hq => by
    by_contra hqi
    rw [hProc, upd_of_ne hqi] at hq
    exact hq rfl
  refine ⟨fun i => ?_, fun _ _ => nofun, fun i r hr => ?_, fun _ => ⟨rfl, fun q hq => ?_, ?_⟩⟩
  · by_cases hi : i = initproc
    · simp [hProc, hi, pendingExit]
    · simp [hProc, hi, pendingExit, Pcb.free]
  · by_cases hi : i = initproc
    · simp [hProc, hi, Pcb.free] at hr
    · simp [hProc, hi, Pcb.free] at hr
  · rw [hLive q hq, hProc, upd_self]
    decide
  · intro q r hq hr _
    rw [hLive q hq, hLive r hr]

theorem histInv_run {tr : List (Nat × KOp)} (h : (kLts nproc).Run tr s) :
    HistInv tr s :=
  h.invariant (by rintro _ ⟨cond, rfl⟩; exact histInv_initial cond)
    (fun _ _ _ _ hRun hHist hStep =>
      hHist.move (schedInv_run hRun) (rangeInv_run hRun) (familyInv_run hRun) (kMove_of_step hStep))

/-! ## Results -/

/-- The steps with a label of the histories. -/
theorem KMove.loud {s' : KSys} (hInv : SchedInv s)
    (hMove : KMove nproc s c op s') (hOp : op.silent = false) :
    (∃ p i, op = .alloc p i s.sh.nextpid ∧ (s.sh.proc i).state = .unused) ∨
    (∃ p status, op = .exited p (s.sh.proc p).pid status ∧ (s.sh.proc p).state = .running) ∨
    ∃ p i, op = .deliver p i (s.sh.proc i).pid (s.sh.proc i).xstate ∧ (s.cpu c).on = some p ∧
      s.code c = .wait3 i ∧ (s.sh.proc i).state = .zombie := by
  cases hMove with
  | irq _ hMove =>
    rw [hMove.record.1] at hOp
    cases hOp
  | alloc _ _ _ hState => exact Or.inl ⟨_, _, rfl, hState⟩
  | @sched p _ _ _ hOn hSw hMove =>
    have hState := (hInv.engaged_run hOn hSw).1
    generalize (s.th p).code = k at hMove
    cases hMove with
    | exit => exact Or.inr (Or.inl ⟨p, _, rfl, hState⟩)
    | _ => cases hOp
  | @proc p _ _ _ hOn hSw hMove =>
    rcases hMove.record (hInv.kid p) with ⟨hSilent, -⟩ | ⟨i, rfl, hCode, hState, -⟩
    · rw [hSilent] at hOp
      cases hOp
    · exact Or.inr (Or.inr ⟨p, i, rfl, hOn, (KSys.code_proc hOn).trans hCode, hState⟩)
  | _ => cases hOp

/-- In every state that is reached:

* when `wait_lock` is free, every process but the first whose `fork` has completed has a parent
  that is neither `UNUSED` nor a `ZOMBIE`, and no process sleeps in `wait` while it has a `ZOMBIE`
  child;
* a process that exited stays in its slot, with its pid and status, until it is delivered; no
  other process exits there and the slot is not allocated before;
* a `wait` that returns delivers the pid and the status of such a process; it is called by the
  parent the process has then, which is the one that forked it or `initproc`;
* pids of processes in use differ, if there were fewer than `2 ^ 31 - 1` calls of `allocpid`. -/
theorem process_family {nproc : Nat} {tr : List (Nat × KOp)} {s : KSys} (h : (kLts nproc).Run tr s) :
    (s.sh.wlock = none →
      (∀ q, q ≠ initproc → (s.sh.proc q).state ≠ .unused → (s.sh.proc q).state ≠ .used →
        ∃ r, (s.sh.proc q).parent = some r ∧ (s.sh.proc r).state ≠ .unused ∧
          (s.sh.proc r).state ≠ .zombie) ∧
      ∀ q i, (s.sh.proc q).state = .sleeping → (s.sh.proc q).chan = some (.proc q) →
        (s.sh.proc i).parent = some q → (s.sh.proc i).state ≠ .zombie) ∧
    (∀ i pid status, pendingExit tr i = some (pid, status) ↔ (s.sh.proc i).state = .zombie ∧
      (s.sh.proc i).pid = pid ∧ (s.sh.proc i).xstate = status) ∧
    (∀ c p pid status s', (kLts nproc).step s (c, .exited p pid status) = some (.ok s') →
      pendingExit tr p = none) ∧
    (∀ c p i pid s', (kLts nproc).step s (c, .alloc p i pid) = some (.ok s') →
      pendingExit tr i = none) ∧
    (∀ c q i pid status s', (kLts nproc).step s (c, .deliver q i pid status) = some (.ok s') →
      pendingExit tr i = some (pid, status) ∧ (s.cpu c).on = some q ∧
        (s.sh.proc i).parent = some q ∧ (q = initproc ∨ forkedBy tr i = some q)) ∧
    (allocpids tr < 2 ^ 31 - 1 → ∀ q r, (s.sh.proc q).state ≠ .unused →
      (s.sh.proc r).state ≠ .unused → q ≠ r → (s.sh.proc q).pid ≠ (s.sh.proc r).pid) := by
  have hInv := schedInv_run h
  have hFam := familyInv_run h
  have hWait := waitInv_run h
  have hHist := histInv_run h
  have hPending : ∀ i, (s.sh.proc i).state ≠ .zombie → pendingExit tr i = none := fun i hi => by
    rw [hHist.pending, if_neg hi]
  refine ⟨fun hFree => ⟨fun q hq h₁ h₂ => ?_, fun q i hSleep hChan hParent hZombie => ?_⟩,
    fun i pid status => ?_, fun c p pid status s' hStep => ?_, fun c p i pid s' hStep => ?_,
    fun c q i pid status s' hStep => ?_, fun hn q r hq hr hne hEq => ?_⟩
  · obtain ⟨r, hr⟩ := Option.ne_none_iff_exists'.mp (hFam.forked q hq h₁ h₂)
    have hAlive := hFam.alive q r hr
    refine ⟨r, hr, fun hState => ?_, fun hState => ?_⟩
    all_goals
      rw [hState] at hAlive
      cases hAlive
  · obtain ⟨c, hc⟩ := hWait.called q i (Or.inl ⟨hSleep, hChan⟩) hParent hZombie
    rw [(hWait.wl () c).mpr (Code.wl_calls hc)] at hFree
    cases hFree
  · rw [hHist.pending]
    by_cases hState : (s.sh.proc i).state = .zombie
    · simp [hState]
    · simp [hState]
  · rcases (kMove_of_step hStep).loud hInv rfl with ⟨_, _, hOp, _⟩ | ⟨_, _, hOp, hState⟩ | ⟨_, _, hOp, _⟩
    · cases hOp
    · cases hOp
      exact hPending p (by simp [hState])
    · cases hOp
  · rcases (kMove_of_step hStep).loud hInv rfl with ⟨_, _, hOp, hState⟩ | ⟨_, _, hOp, _⟩ | ⟨_, _, hOp, _⟩
    · cases hOp
      exact hPending i (by simp [hState])
    · cases hOp
    · cases hOp
  · rcases (kMove_of_step hStep).loud hInv rfl with ⟨_, _, hOp, _⟩ | ⟨_, _, hOp, _⟩ | ⟨_, _, hOp, hDel⟩
    · cases hOp
    · cases hOp
    · cases hOp
      obtain ⟨hOn, hCode, hZombie⟩ := hDel
      have hParent := hWait.child c q i hOn hCode
      exact ⟨by rw [hHist.pending, if_pos hZombie], hOn, hParent, hHist.parent i q hParent⟩
  · exact hne ((hHist.pids hn).distinct q r hq hr hEq)

/-- The first process forks and goes to sleep in `wait`; the child exits with status 7 on another
CPU. -/
def forkExit : List (Nat × KOp) :=
  List.replicate 4 (0, .next) ++ [(0, .fork), (0, .next), (0, .next), (0, .next), (0, .alloc 0 1 2)] ++
    List.replicate 5 (0, .next) ++ [(0, .wait)] ++ List.replicate 11 (0, .next) ++
    List.replicate 6 (1, .next) ++ [(1, .exit 7)] ++ List.replicate 9 (1, .next) ++
    [(1, .exited 1 2 7)] ++ List.replicate 3 (1, .next) ++ List.replicate 10 (0, .next)

theorem process_family_exit :
    ∃ s s', (kLts 2).Run forkExit s ∧
      (kLts 2).step s (0, .deliver 0 1 2 7) = some (.ok s') ∧ pendingExit forkExit 1 = some (2, 7) ∧
      (s.sh.proc 1).parent = some 0 := by
  obtain ⟨s, s', hExec, hStep⟩ : ∃ s s', (kLts 2).exec (KSys.initial fun _ => false) forkExit = some s ∧
      (kLts 2).step s (0, .deliver 0 1 2 7) = some (.ok s') := ⟨_, _, rfl, rfl⟩
  have hRun := Lts.run_of_exec (Lts.Run.start (KSys.init_initial 2 _)) hExec
  obtain ⟨hPending, -, hParent, -⟩ := (process_family hRun).2.2.2.2.1 0 0 1 2 7 s' hStep
  exact ⟨s, s', hRun, hStep, hPending, hParent⟩

end Xv6
