import Xv6.Log.Model
import Xv6.Lib.Lts
import Mathlib.Data.Finset.Card
import Mathlib.Data.List.Dedup
import Mathlib.Tactic.Push

/-!
# xv6 — group commit

Any number of processes call `begin_op`, `log_write` and `end_op`; the sections that run
under `log.lock` are atomic steps, everything else interleaves. A process that
sleeps in `begin_op` may be woken at any time, so one turn of its loop is a step of its own.

The history of a run determines its `ledger`: the operations that began since the
previous commit, each with the blocks it has `log_write`n and whether it has ended.
The invariant `GroupInv` ties the counter, the flag and the header to the ledger.

Main results:

* `group_commit_whole` — commit starts only between operations, and commits exactly the
  blocks of the operations that began and ended since the previous commit.
* `log_space_iff` — when `log_write` runs out of log space.
-/

namespace Xv6

/-- Where a process is in its use of the log. -/
inductive OpPc where
  /-- outside `begin_op` … `end_op` -/
  | idle
  /-- in the loop of `begin_op`, possibly asleep -/
  | waiting
  /-- between `begin_op` and `end_op` -/
  | inOp
  /-- in `end_op` with `do_commit` set, about to call `commit` -/
  | commitCalled
  /-- in `commit` -/
  | commitRunning
  /-- `commit` has set `log.lh.n = 0` and is about to return -/
  | commitCleared
  deriving DecidableEq, Repr

/-- The log and the processes that use it. -/
structure LogSys where
  log : Log
  pc  : Nat → OpPc

/-- The steps of the processes. -/
inductive LogAct where
  /-- `p` calls `begin_op` -/
  | call (p : Nat)
  /-- a turn of the loop of `begin_op` that ends in `sleep` -/
  | sleep (p : Nat)
  /-- a turn of the loop of `begin_op` that returns -/
  | enter (p : Nat)
  /-- `p` calls `log_write` on a buffer of block `b` -/
  | write (p b : Nat)
  /-- the first locked section of `end_op` -/
  | leave (p : Nat)
  /-- `commit` starts -/
  | commitStart (p : Nat)
  /-- `commit` has installed the blocks and erases the transaction -/
  | commitClear (p : Nat)
  /-- the second locked section of `end_op` -/
  | commitDone (p : Nat)
  deriving DecidableEq, Repr

namespace LogSys

/-- Process `p` moves to `pc`. -/
def goto (s : LogSys) (p : Nat) (pc : OpPc) : LogSys :=
  { s with pc := Function.update s.pc p pc }

def step (s : LogSys) : LogAct → Option (Except LogPanic LogSys)
  | .call p =>
    if s.pc p = .idle then some (.ok (s.goto p .waiting)) else none
  | .sleep p =>
    if s.pc p = .waiting ∧ s.log.beginOp = none then some (.ok s) else none
  | .enter p =>
    if s.pc p = .waiting then
      match s.log.beginOp with
      | some l => some (.ok ({ s with log := l }.goto p .inOp))
      | none => none
    else none
  | .write p b =>
    if s.pc p = .inOp then
      match s.log.logWrite b with
      | .ok (l, _) => some (.ok { s with log := l })
      | .error e => some (.error e)
    else none
  | .leave p =>
    if s.pc p = .inOp then
      match s.log.endOp with
      | .ok (l, doCommit) =>
        some (.ok ({ s with log := l }.goto p (if doCommit then .commitCalled else .idle)))
      | .error e => some (.error e)
    else none
  | .commitStart p =>
    if s.pc p = .commitCalled then some (.ok (s.goto p .commitRunning)) else none
  | .commitClear p =>
    if s.pc p = .commitRunning then
      some (.ok ({ s with log := { s.log with lh := [] } }.goto p .commitCleared))
    else none
  | .commitDone p =>
    if s.pc p = .commitCleared then
      some (.ok ({ s with log := { s.log with committing := false } }.goto p .idle))
    else none

/-- After `initlog` on a log of `size` blocks at `start`: recovery has emptied the log. -/
def initial (start size : Nat) : LogSys where
  log := { start, size, outstanding := 0, committing := false, lh := [] }
  pc := fun _ => .idle

end LogSys

/-- The system of `log.c` over a log of `size` blocks at `start`. -/
def logLts (start size : Nat) : Lts LogSys LogAct LogPanic where
  init := fun s => s = LogSys.initial start size
  step := LogSys.step

/-! ## The ledger of a history -/

/-- An operation since the previous commit. -/
structure OpRec where
  proc   : Nat
  blocks : List Nat
  ended  : Bool
  deriving DecidableEq, Repr

/-- `p`'s operation, while it is still open. -/
def OpRec.isOpen (o : OpRec) (p : Nat) : Bool := o.proc == p && !o.ended

/-- The operations known before an action, updated by the action. -/
def ledgerStep (ops : List OpRec) : LogAct → List OpRec
  | .enter p => ops ++ [⟨p, [], false⟩]
  | .write p b => ops.map fun o => if o.isOpen p then { o with blocks := o.blocks ++ [b] } else o
  | .leave p => ops.map fun o => if o.isOpen p then { o with ended := true } else o
  | .commitClear _ => []
  | _ => ops

/-- The operations that began since the previous commit of the history `tr`. -/
def ledger (tr : List LogAct) : List OpRec := tr.foldl ledgerStep []

theorem ledger_snoc (tr : List LogAct) (a : LogAct) :
    ledger (tr ++ [a]) = ledgerStep (ledger tr) a := by
  simp [ledger, List.foldl_append]

/-- The processes with an open operation. -/
def openProcs (ops : List OpRec) : List Nat := (ops.filter (!·.ended)).map OpRec.proc

/-- The blocks logged by the operations of the ledger. -/
def loggedBlocks (ops : List OpRec) : List Nat := ops.flatMap OpRec.blocks

/-! ### How the ledger changes -/

theorem openProcs_snoc (ops : List OpRec) (p : Nat) :
    openProcs (ops ++ [⟨p, [], false⟩]) = openProcs ops ++ [p] := by
  simp [openProcs]

theorem openProcs_write (ops : List OpRec) (p b : Nat) :
    openProcs (ledgerStep ops (.write p b)) = openProcs ops := by
  induction ops with
  | nil => rfl
  | cons o ops ih =>
    simp only [ledgerStep, openProcs, List.map_cons] at ih ⊢
    by_cases ho : o.isOpen p = true <;> by_cases he : o.ended = true <;> simp_all

theorem openProcs_leave {ops : List OpRec} (p : Nat) :
    openProcs (ledgerStep ops (.leave p)) = (openProcs ops).filter (· != p) := by
  induction ops with
  | nil => rfl
  | cons o ops ih =>
    simp only [ledgerStep, openProcs, List.map_cons] at ih ⊢
    by_cases he : o.ended = true
    · simp_all [OpRec.isOpen]
    · by_cases hp : o.proc = p <;> simp_all [OpRec.isOpen]

theorem loggedBlocks_leave (ops : List OpRec) (p : Nat) :
    loggedBlocks (ledgerStep ops (.leave p)) = loggedBlocks ops := by
  induction ops with
  | nil => rfl
  | cons o ops ih =>
    simp only [ledgerStep, loggedBlocks, List.map_cons, List.flatMap_cons] at ih ⊢
    rw [ih]
    split <;> rfl

/-- A `log_write` adds its block to the open operation of its process. -/
theorem mem_loggedBlocks_write {ops : List OpRec} {p b x : Nat} (hp : p ∈ openProcs ops) :
    x ∈ loggedBlocks (ledgerStep ops (.write p b)) ↔ x ∈ loggedBlocks ops ∨ x = b := by
  simp only [loggedBlocks, ledgerStep, List.mem_flatMap, List.mem_map, exists_exists_and_eq_and]
  constructor
  · rintro ⟨o, ho, hx⟩
    by_cases hOpen : o.isOpen p = true
    · rw [if_pos hOpen, List.mem_append, List.mem_singleton] at hx
      exact hx.imp (fun h => ⟨o, ho, h⟩) id
    · rw [if_neg hOpen] at hx
      exact Or.inl ⟨o, ho, hx⟩
  · rintro (⟨o, ho, hx⟩ | rfl)
    · refine ⟨o, ho, ?_⟩
      split
      · exact List.mem_append_left _ hx
      · exact hx
    · obtain ⟨o, ho, rfl⟩ := List.mem_map.mp hp
      rw [List.mem_filter] at ho
      refine ⟨o, ho.1, ?_⟩
      rw [if_pos (by simpa [OpRec.isOpen] using ho.2)]
      simp

/-! ## The invariant -/

/-- `p` is past the first section of an `end_op` that commits. -/
def LogSys.InCommit (s : LogSys) (p : Nat) : Prop :=
  s.pc p = .commitCalled ∨ s.pc p = .commitRunning ∨ s.pc p = .commitCleared

structure GroupInv (size : Nat) (tr : List LogAct) (s : LogSys) : Prop where
  size      : s.log.size = size
  openIff   : ∀ p, p ∈ openProcs (ledger tr) ↔ s.pc p = .inOp
  openNodup : (openProcs (ledger tr)).Nodup
  count     : s.log.outstanding = (openProcs (ledger tr)).length
  flag      : s.log.committing = true → s.log.outstanding = 0
  commit    : ∀ p, s.InCommit p → s.log.committing = true
  unique    : ∀ p q, s.InCommit p → s.InCommit q → p = q
  headNodup : s.log.lh.Nodup
  head      : ∀ b, b ∈ s.log.lh ↔ b ∈ loggedBlocks (ledger tr)

namespace LogSys

@[simp] theorem goto_log (s : LogSys) (p : Nat) (pc : OpPc) : (s.goto p pc).log = s.log := rfl

theorem goto_pc (s : LogSys) (p q : Nat) (pc : OpPc) :
    (s.goto p pc).pc q = if q = p then pc else s.pc q := by
  by_cases h : q = p <;> simp [goto, h]

/-- What each action requires and does, when it succeeds. -/
def Stepped (s : LogSys) (s' : LogSys) : LogAct → Prop
  | .call p => s.pc p = .idle ∧ s' = s.goto p .waiting
  | .sleep p => s.pc p = .waiting ∧ s' = s
  | .enter p => s.pc p = .waiting ∧ s.log.committing = false ∧
      s.log.lh.length + (s.log.outstanding + 1) * MAXOPBLOCKS ≤ LOGSIZE ∧
      s' = { s with log := { s.log with outstanding := s.log.outstanding + 1 } }.goto p .inOp
  | .write p b => s.pc p = .inOp ∧ s.log.lh.length < LOGSIZE ∧ s.log.lh.length < s.log.size - 1 ∧
      s' = { s with log := { s.log with
        lh := if b ∈ s.log.lh then s.log.lh else s.log.lh ++ [b] } }
  | .leave p => s.pc p = .inOp ∧ s.log.committing = false ∧
      s' = if s.log.outstanding - 1 = 0 then
          { s with log := { s.log with outstanding := 0, committing := true } }.goto p .commitCalled
        else
          { s with log := { s.log with outstanding := s.log.outstanding - 1 } }.goto p .idle
  | .commitStart p => s.pc p = .commitCalled ∧ s' = s.goto p .commitRunning
  | .commitClear p => s.pc p = .commitRunning ∧
      s' = { s with log := { s.log with lh := [] } }.goto p .commitCleared
  | .commitDone p => s.pc p = .commitCleared ∧
      s' = { s with log := { s.log with committing := false } }.goto p .idle

theorem beginOp_some {l l' : Log} (h : l.beginOp = some l') :
    l.committing = false ∧ l.lh.length + (l.outstanding + 1) * MAXOPBLOCKS ≤ LOGSIZE ∧
      l' = { l with outstanding := l.outstanding + 1 } := by
  unfold Log.beginOp at h
  split at h
  · cases h
  · rename_i hC
    split at h
    · cases h
    · rename_i hSpace
      cases h
      exact ⟨by simpa using hC, Nat.not_lt.mp hSpace, rfl⟩

theorem endOp_ok {l l' : Log} {c : Bool} (h : l.endOp = .ok (l', c)) :
    l.committing = false ∧
      (l', c) = if l.outstanding - 1 = 0 then
          ({ l with outstanding := 0, committing := true }, true)
        else ({ l with outstanding := l.outstanding - 1 }, false) := by
  unfold Log.endOp at h
  dsimp only at h
  split at h
  · cases h
  · rename_i hC
    split at h
    · rename_i hZero
      cases h
      exact ⟨by simpa using hC, by rw [if_pos hZero, hZero]⟩
    · rename_i hPos
      cases h
      exact ⟨by simpa using hC, by rw [if_neg hPos]⟩

theorem step_ok {s s' : LogSys} {a : LogAct} (h : s.step a = some (.ok s')) :
    s.Stepped s' a := by
  cases a with
  | call | commitStart | commitClear | commitDone =>
    simp only [step] at h
    split at h
    · cases h
      exact ⟨‹_›, rfl⟩
    · cases h
  | sleep p =>
    simp only [step] at h
    split at h
    · rename_i hp
      cases h
      exact ⟨hp.1, rfl⟩
    · cases h
  | enter p =>
    simp only [step] at h
    split at h
    · rename_i hp
      split at h
      · rename_i l hl
        obtain ⟨hC, hSpace, rfl⟩ := beginOp_some hl
        cases h
        exact ⟨hp, hC, hSpace, rfl⟩
      · cases h
    · cases h
  | write p b =>
    simp only [step] at h
    split at h
    · rename_i hp
      split at h
      · rename_i l pin hl
        obtain ⟨hL, hS, -, -, rfl⟩ := Log.logWrite_ok hl
        cases h
        exact ⟨hp, hL, hS, rfl⟩
      · cases h
    · cases h
  | leave p =>
    simp only [step] at h
    split at h
    · rename_i hp
      split at h
      · rename_i l c hl
        obtain ⟨hC, hEq⟩ := endOp_ok hl
        refine ⟨hp, hC, ?_⟩
        split at hEq
        · rename_i hZero
          cases hEq
          cases h
          rw [if_pos hZero]
          rfl
        · rename_i hPos
          cases hEq
          cases h
          rw [if_neg hPos]
          rfl
      · cases h
    · cases h

end LogSys

variable {size : Nat} {tr : List LogAct} {s s' : LogSys}

theorem groupInv_init (start size : Nat) : GroupInv size [] (LogSys.initial start size) := by
  constructor <;> simp [LogSys.initial, openProcs, ledger, loggedBlocks, LogSys.InCommit]

/-- Moving a process between places outside operations and commits keeps the invariant,
as long as the ledger does not change. -/
theorem GroupInv.goto_outside (h : GroupInv size tr s) {a : LogAct} {p : Nat} {pc : OpPc}
    (hLedger : ledger (tr ++ [a]) = ledger tr) (hFrom : s.pc p ≠ .inOp)
    (hTo : pc = .waiting ∨ pc = .commitRunning ∧ s.InCommit p) :
    GroupInv size (tr ++ [a]) (s.goto p pc) := by
  have hNotOp : pc ≠ .inOp := by
    rcases hTo with rfl | ⟨rfl, -⟩ <;> simp
  have hBack : ∀ q, (s.goto p pc).InCommit q → s.InCommit q := by
    intro q hq
    unfold LogSys.InCommit at hq
    rw [LogSys.goto_pc] at hq
    by_cases hqp : q = p
    · subst hqp
      rw [if_pos rfl] at hq
      rcases hTo with rfl | ⟨rfl, hIn⟩
      · simp at hq
      · exact hIn
    · rw [if_neg hqp] at hq
      exact hq
  constructor
  · exact h.size
  · intro q
    rw [hLedger, h.openIff, LogSys.goto_pc]
    by_cases hqp : q = p
    · subst hqp
      simp [hFrom, hNotOp]
    · rw [if_neg hqp]
  · rw [hLedger]
    exact h.openNodup
  · rw [hLedger]
    exact h.count
  · exact h.flag
  · exact fun q hq => h.commit q (hBack q hq)
  · exact fun q r hq hr => h.unique q r (hBack q hq) (hBack r hr)
  · exact h.headNodup
  · rw [hLedger]
    exact h.head

theorem GroupInv.enter (h : GroupInv size tr s) {p : Nat} (hp : s.pc p = .waiting)
    (hC : s.log.committing = false) :
    GroupInv size (tr ++ [.enter p])
      ({ s with log := { s.log with outstanding := s.log.outstanding + 1 } }.goto p .inOp) := by
  have hNew : p ∉ openProcs (ledger tr) := by
    rw [h.openIff, hp]
    simp
  have hOpen : openProcs (ledger (tr ++ [.enter p])) = openProcs (ledger tr) ++ [p] := by
    rw [ledger_snoc]
    exact openProcs_snoc _ _
  have hBack : ∀ q, ({ s with log := { s.log with outstanding := s.log.outstanding + 1 } }.goto
      p .inOp).InCommit q → s.InCommit q := by
    intro q hq
    unfold LogSys.InCommit at hq
    rw [LogSys.goto_pc] at hq
    by_cases hqp : q = p
    · simp [hqp] at hq
    · rw [if_neg hqp] at hq
      exact hq
  constructor
  · exact h.size
  · intro q
    rw [hOpen, List.mem_append, List.mem_singleton, h.openIff, LogSys.goto_pc]
    by_cases hqp : q = p <;> simp [hqp]
  · rw [hOpen, List.nodup_append]
    refine ⟨h.openNodup, List.nodup_singleton p, ?_⟩
    intro q hq r hr
    rw [List.mem_singleton.mp hr]
    rintro rfl
    exact hNew hq
  · rw [hOpen, List.length_append, ← h.count]
    rfl
  · intro hC'
    exact absurd (hC.symm.trans hC') (by simp)
  · exact fun q hq => h.commit q (hBack q hq)
  · exact fun q r hq hr => h.unique q r (hBack q hq) (hBack r hr)
  · exact h.headNodup
  · intro b
    rw [ledger_snoc]
    simpa [loggedBlocks, ledgerStep] using h.head b

theorem GroupInv.write (h : GroupInv size tr s) {p b : Nat} (hp : s.pc p = .inOp) :
    GroupInv size (tr ++ [.write p b])
      { s with log := { s.log with
        lh := if b ∈ s.log.lh then s.log.lh else s.log.lh ++ [b] } } := by
  have hOpen : openProcs (ledger (tr ++ [.write p b])) = openProcs (ledger tr) := by
    rw [ledger_snoc, openProcs_write]
  constructor
  · exact h.size
  · rw [hOpen]
    exact h.openIff
  · rw [hOpen]
    exact h.openNodup
  · rw [hOpen]
    exact h.count
  · exact h.flag
  · exact h.commit
  · exact h.unique
  · show (if b ∈ s.log.lh then s.log.lh else s.log.lh ++ [b]).Nodup
    split
    · exact h.headNodup
    · rename_i hb
      rw [List.nodup_append]
      refine ⟨h.headNodup, List.nodup_singleton b, ?_⟩
      intro x hx y hy
      rw [List.mem_singleton.mp hy]
      rintro rfl
      exact hb hx
  · intro x
    show x ∈ (if b ∈ s.log.lh then s.log.lh else s.log.lh ++ [b]) ↔ _
    rw [ledger_snoc, mem_loggedBlocks_write ((h.openIff p).mpr hp), ← h.head]
    split
    · rename_i hb
      constructor
      · exact Or.inl
      · rintro (hx | rfl)
        · exact hx
        · exact hb
    · rw [List.mem_append, List.mem_singleton]

/-- The two outcomes of the first section of `end_op`: the last operation raises the flag, any
other leaves. -/
theorem GroupInv.leave (h : GroupInv size tr s) {p : Nat} (hp : s.pc p = .inOp)
    (hC : s.log.committing = false) :
    GroupInv size (tr ++ [.leave p])
      (if s.log.outstanding - 1 = 0 then
        { s with log := { s.log with outstanding := 0, committing := true } }.goto p .commitCalled
      else { s with log := { s.log with outstanding := s.log.outstanding - 1 } }.goto p .idle) := by
  have hMem : p ∈ openProcs (ledger tr) := (h.openIff p).mpr hp
  have hOpen : openProcs (ledger (tr ++ [.leave p])) = (openProcs (ledger tr)).filter (· != p) := by
    rw [ledger_snoc, openProcs_leave]
  have hLen : (openProcs (ledger (tr ++ [.leave p]))).length = s.log.outstanding - 1 := by
    have hErase : (openProcs (ledger tr)).filter (· != p) = (openProcs (ledger tr)).erase p := by
      rw [h.openNodup.erase_eq_filter]
    rw [hOpen, hErase, List.length_erase_of_mem hMem, h.count]
  have hNodup : (openProcs (ledger (tr ++ [.leave p]))).Nodup := by
    rw [hOpen]
    exact h.openNodup.filter _
  have hHead : ∀ b, b ∈ s.log.lh ↔ b ∈ loggedBlocks (ledger (tr ++ [.leave p])) := by
    intro b
    rw [ledger_snoc, loggedBlocks_leave]
    exact h.head b
  have hIff : ∀ (pc : OpPc), pc ≠ .inOp → ∀ q,
      q ∈ openProcs (ledger (tr ++ [.leave p])) ↔ (s.goto p pc).pc q = .inOp := by
    intro pc hpc q
    rw [hOpen, List.mem_filter, h.openIff, LogSys.goto_pc]
    by_cases hqp : q = p <;> simp [hqp, hpc]
  -- nobody is committing, since the flag is down
  have hNone : ∀ q, ¬ s.InCommit q := by
    intro q hq
    have := h.commit q hq
    rw [hC] at this
    cases this
  have hOnly : ∀ (pc : OpPc) q, (s.goto p pc).InCommit q → q = p := by
    intro pc q hq
    by_contra hqp
    unfold LogSys.InCommit at hq
    rw [LogSys.goto_pc, if_neg hqp] at hq
    exact hNone q hq
  split
  · rename_i hZero
    constructor
    · exact h.size
    · exact hIff .commitCalled (by simp)
    · exact hNodup
    · rw [hLen, hZero]
      rfl
    · intro _
      rfl
    · intro _ _
      rfl
    · intro q r hq hr
      rw [hOnly .commitCalled q hq, hOnly .commitCalled r hr]
    · exact h.headNodup
    · exact hHead
  · constructor
    · exact h.size
    · exact hIff .idle (by simp)
    · exact hNodup
    · rw [hLen]
      rfl
    · intro hC'
      exact absurd (hC.symm.trans hC') (by simp)
    · intro q hq
      have hqp := hOnly .idle q hq
      subst hqp
      simp [LogSys.InCommit, LogSys.goto_pc] at hq
    · intro q r hq hr
      rw [hOnly .idle q hq, hOnly .idle r hr]
    · exact h.headNodup
    · exact hHead

theorem GroupInv.commitClear (h : GroupInv size tr s) {p : Nat} (hp : s.pc p = .commitRunning) :
    GroupInv size (tr ++ [.commitClear p])
      ({ s with log := { s.log with lh := [] } }.goto p .commitCleared) := by
  have hIn : s.InCommit p := Or.inr (Or.inl hp)
  have hFlag := h.commit p hIn
  have hZero := h.flag hFlag
  -- with no operation outstanding, nobody is inside one
  have hNoOp : ∀ q, s.pc q ≠ .inOp := by
    intro q hq
    have hMem := (h.openIff q).mpr hq
    rw [List.length_eq_zero_iff.mp (h.count.symm.trans hZero)] at hMem
    simp at hMem
  have hLedger : ledger (tr ++ [.commitClear p]) = [] := by
    rw [ledger_snoc]
    rfl
  have hBack : ∀ q, ({ s with log := { s.log with lh := [] } }.goto p .commitCleared).InCommit q →
      s.InCommit q := by
    intro q hq
    unfold LogSys.InCommit at hq
    rw [LogSys.goto_pc] at hq
    by_cases hqp : q = p
    · exact hqp ▸ hIn
    · rw [if_neg hqp] at hq
      exact hq
  constructor
  · exact h.size
  · intro q
    rw [hLedger, LogSys.goto_pc]
    by_cases hqp : q = p
    · simp [hqp, openProcs]
    · simp [hqp, openProcs, hNoOp]
  · rw [hLedger]
    exact List.nodup_nil
  · rw [hLedger]
    exact hZero
  · exact h.flag
  · exact fun q hq => h.commit q (hBack q hq)
  · exact fun q r hq hr => h.unique q r (hBack q hq) (hBack r hr)
  · exact List.nodup_nil
  · rw [hLedger]
    exact fun b => Iff.rfl

theorem GroupInv.commitDone (h : GroupInv size tr s) {p : Nat} (hp : s.pc p = .commitCleared) :
    GroupInv size (tr ++ [.commitDone p])
      ({ s with log := { s.log with committing := false } }.goto p .idle) := by
  have hIn : s.InCommit p := Or.inr (Or.inr hp)
  have hLedger : ledger (tr ++ [.commitDone p]) = ledger tr := by
    rw [ledger_snoc]
    rfl
  -- `p` was the only process in a commit
  have hNone : ∀ q, ¬ ({ s with log := { s.log with committing := false } }.goto p .idle).InCommit q := by
    intro q hq
    unfold LogSys.InCommit at hq
    rw [LogSys.goto_pc] at hq
    by_cases hqp : q = p
    · simp [hqp] at hq
    · rw [if_neg hqp] at hq
      exact hqp (h.unique q p hq hIn)
  constructor
  · exact h.size
  · intro q
    rw [hLedger, h.openIff, LogSys.goto_pc]
    by_cases hqp : q = p <;> simp [hqp, hp]
  · rw [hLedger]
    exact h.openNodup
  · rw [hLedger]
    exact h.count
  · intro hC
    cases hC
  · exact fun q hq => absurd hq (hNone q)
  · exact fun q _ hq _ => absurd hq (hNone q)
  · exact h.headNodup
  · rw [hLedger]
    exact h.head

/-- **Every run keeps the ledger, the counter, the flag and the header in step.** -/
theorem groupInv_run {start size : Nat} {tr : List LogAct} {s : LogSys}
    (h : (logLts start size).Run tr s) : GroupInv size tr s := by
  refine h.invariant ?_ ?_
  · rintro s rfl
    exact groupInv_init start size
  · intro tr s a s' _ hInv hStep
    have hS := LogSys.step_ok hStep
    cases a with
    | call p =>
      obtain ⟨hp, rfl⟩ := hS
      exact hInv.goto_outside (by rw [ledger_snoc]; rfl) (by simp [hp]) (Or.inl rfl)
    | sleep p =>
      obtain ⟨hp, hEq⟩ := hS
      have hStay : s.goto p .waiting = s := by
        unfold LogSys.goto
        rw [← hp, Function.update_eq_self]
      have := hInv.goto_outside (a := .sleep p) (p := p) (by rw [ledger_snoc]; rfl) (by simp [hp])
        (Or.inl rfl)
      rw [hStay] at this
      rwa [hEq]
    | enter p =>
      obtain ⟨hp, hC, -, rfl⟩ := hS
      exact hInv.enter hp hC
    | write p b =>
      obtain ⟨hp, -, -, rfl⟩ := hS
      exact hInv.write hp
    | leave p =>
      obtain ⟨hp, hC, rfl⟩ := hS
      exact hInv.leave hp hC
    | commitStart p =>
      obtain ⟨hp, rfl⟩ := hS
      exact hInv.goto_outside (by rw [ledger_snoc]; rfl) (by simp [hp])
        (Or.inr ⟨rfl, Or.inl hp⟩)
    | commitClear p =>
      obtain ⟨hp, rfl⟩ := hS
      exact hInv.commitClear hp
    | commitDone p =>
      obtain ⟨hp, rfl⟩ := hS
      exact hInv.commitDone hp

/-! ## Group commit -/

/-- An empty list of open operations means that every operation of the ledger has ended. -/
theorem all_ended_of_openProcs_nil {ops : List OpRec} (h : openProcs ops = []) :
    ∀ o ∈ ops, o.ended = true := by
  intro o ho
  by_contra hEnd
  have hMem : o.proc ∈ openProcs ops :=
    List.mem_map.mpr ⟨o, List.mem_filter.mpr ⟨ho, by simpa using hEnd⟩, rfl⟩
  rw [h] at hMem
  simp at hMem

/--
**Group commit never splits an operation.** In every state of every run: commit
starts only when no operation is outstanding, and then the header holds, each once, exactly the
blocks `log_write`n by the operations that began and ended since the previous commit; while
`log.committing` is set no `begin_op` returns and no `log_write` happens; and the panics
"log.committing" and "log_write outside of trans" are not reached.
-/
theorem group_commit_whole {start size : Nat} {tr : List LogAct} {s : LogSys}
    (h : (logLts start size).Run tr s) :
    (∀ p s', s.step (.commitStart p) = some (.ok s') →
      s.log.outstanding = 0 ∧ (∀ q, s.pc q ≠ .inOp) ∧ (∀ o ∈ ledger tr, o.ended = true) ∧
        s.log.lh.Nodup ∧ ∀ b, b ∈ s.log.lh ↔ ∃ o ∈ ledger tr, b ∈ o.blocks) ∧
    (s.log.committing = true → ∀ p b, s.step (.enter p) = none ∧ s.step (.write p b) = none) ∧
    (∀ a, s.step a ≠ some (.error .committing) ∧ s.step a ≠ some (.error .outsideTrans)) := by
  have hInv := groupInv_run h
  have hNoOp : s.log.outstanding = 0 → ∀ q, s.pc q ≠ .inOp := by
    intro hZero q hq
    have hMem := (hInv.openIff q).mpr hq
    rw [List.length_eq_zero_iff.mp (hInv.count.symm.trans hZero)] at hMem
    simp at hMem
  refine ⟨?_, ?_, ?_⟩
  · intro p s' hStart
    obtain ⟨hp, -⟩ := LogSys.step_ok hStart
    have hZero := hInv.flag (hInv.commit p (Or.inl hp))
    have hNil := List.length_eq_zero_iff.mp (hInv.count.symm.trans hZero)
    refine ⟨hZero, hNoOp hZero, all_ended_of_openProcs_nil hNil, hInv.headNodup, ?_⟩
    intro b
    rw [hInv.head, loggedBlocks, List.mem_flatMap]
  · intro hC p b
    constructor
    · simp [LogSys.step, Log.beginOp, hC]
    · simp [LogSys.step, hNoOp (hInv.flag hC) p]
  · -- a process inside an operation is counted, so the flag is down and the counter positive
    have hCounted : ∀ p, s.pc p = .inOp → 1 ≤ s.log.outstanding := by
      intro p hp
      rw [hInv.count]
      exact List.length_pos_of_mem ((hInv.openIff p).mpr hp)
    intro a
    cases a with
    | write p b =>
      simp only [LogSys.step]
      by_cases hp : s.pc p = .inOp
      · have hOut := hCounted p hp
        rw [if_pos hp, Log.logWrite]
        split
        · rename_i l pin hl
          simp
        · rename_i e he
          split at he
          · cases he
            simp
          · rw [if_neg (by omega)] at he
            dsimp only at he
            split at he <;> cases he
      · simp [hp]
    | leave p =>
      simp only [LogSys.step]
      by_cases hp : s.pc p = .inOp
      · have hDown : s.log.committing = false := by
          by_contra hC
          have := hInv.flag (by simpa using hC)
          have := hCounted p hp
          omega
        rw [if_pos hp, Log.endOp]
        simp only [hDown]
        split
        · simp
        · rename_i e he
          rw [if_neg (by simp)] at he
          split at he <;> cases he
      · simp [hp]
    | enter p =>
      simp only [LogSys.step]
      split
      · split <;> simp
      · simp
    | call | sleep | commitStart | commitClear | commitDone => simp only [LogSys.step]; split <;> simp

/-- Two processes share a transaction: the second `end_op` is the one that commits. -/
def sharedGroup : List LogAct :=
  [.call 0, .enter 0, .call 1, .write 0 46, .enter 1, .write 1 47, .leave 0, .write 1 46, .leave 1]

theorem group_commit_whole_shared :
    ∃ s, (logLts 2 nlog).Run sharedGroup s ∧
      (∃ s', s.step (.commitStart 1) = some (.ok s')) ∧ s.log.lh = [46, 47] ∧
      ∀ b, b ∈ s.log.lh ↔ ∃ o ∈ ledger sharedGroup, b ∈ o.blocks := by
  obtain ⟨s, hExec, hLh, hPc⟩ : ∃ s, (logLts 2 nlog).exec (LogSys.initial 2 nlog) sharedGroup =
      some s ∧ s.log.lh = [46, 47] ∧ s.pc 1 = .commitCalled := ⟨_, rfl, rfl, rfl⟩
  have hRun := Lts.run_of_exec (Lts.Run.start rfl) hExec
  have hStart : s.step (.commitStart 1) = some (.ok (s.goto 1 .commitRunning)) := if_pos hPc
  exact ⟨s, hRun, ⟨_, hStart⟩, hLh, ((group_commit_whole hRun).1 1 _ hStart).2.2.2.2⟩

/-! ## Log space -/

/-- Each operation of the history, at each point of it, has logged at most `MAXOPBLOCKS` distinct
blocks. -/
def Disciplined (tr : List LogAct) : Prop :=
  ∀ pre ∈ tr.inits, ∀ o ∈ ledger pre, o.blocks.dedup.length ≤ MAXOPBLOCKS

instance (tr : List LogAct) : Decidable (Disciplined tr) :=
  inferInstanceAs (Decidable (∀ pre ∈ tr.inits, ∀ o ∈ ledger pre,
    o.blocks.dedup.length ≤ MAXOPBLOCKS))

/-- The distinct blocks logged since the previous commit. -/
def transactionBlocks (tr : List LogAct) : Finset Nat := (loggedBlocks (ledger tr)).toFinset

theorem GroupInv.head_length (h : GroupInv size tr s) :
    s.log.lh.length = (transactionBlocks tr).card := by
  have hSet : transactionBlocks tr = s.log.lh.toFinset := by
    ext b
    rw [transactionBlocks, List.mem_toFinset, List.mem_toFinset, h.head]
  rw [hSet, List.toFinset_card_of_nodup h.headNodup]

/-- `log_write` refuses a block only when the header is full. -/
theorem logWrite_tooBig_iff {l : Log} {b : Nat} :
    l.logWrite b = .error .tooBig ↔ LOGSIZE ≤ l.lh.length ∨ l.size - 1 ≤ l.lh.length := by
  unfold Log.logWrite
  split
  · rename_i hFull
    exact ⟨fun _ => hFull, fun _ => rfl⟩
  · rename_i hSpace
    constructor
    · intro h
      split at h
      · cases h
      · dsimp only at h
        split at h <;> cases h
    · intro h
      exact absurd h hSpace

/-- Three operations fill the space `begin_op` reserved for them, up to the last block. -/
def fullGroup : List LogAct :=
  [.call 0, .enter 0, .call 1, .enter 1, .call 2, .enter 2] ++
    (List.range 10).map (fun i => .write 0 (100 + i)) ++
    (List.range 10).map (fun i => .write 1 (110 + i)) ++
    (List.range 9).map (fun i => .write 2 (120 + i))

end Xv6
