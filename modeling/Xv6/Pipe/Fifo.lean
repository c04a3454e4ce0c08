import Xv6.Pipe.Model

/-!
# xv6 — a pipe is a queue

Whatever the interleaving of readers and writers, and however often the counters have wrapped, the
bytes put into the pipe are the bytes taken out of it followed by those it holds
(`FifoInv.conserve`). Result:

* `pipe_fifo` — at most `PIPESIZE` bytes are in the pipe, they come out in the order they went in,
  and a `pipewrite` that returns `k` put in the first `k` bytes of its buffer.
-/

namespace Xv6

variable {pi : Pipe} {killed : Bool} {src : Nat → Option UInt8} {n : Int} {i : Nat} {s s' : PipeSys}
  {a : PipeAct} {tr : List PipeAct}

namespace Pipe

theorem full_iff (pi : Pipe) : pi.full = true ↔ pi.len = PIPESIZE := by
  unfold full
  rw [decide_eq_true_eq]
  exact pi.isFull_iff (by decide)

theorem empty_iff (pi : Pipe) : pi.empty = true ↔ pi.len = 0 := by
  unfold empty
  rw [decide_eq_true_eq]
  exact pi.isEmpty_iff

/-- The bytes in the pipe, oldest first. -/
def queue (pi : Pipe) : List UInt8 := pi.contents PIPESIZE

theorem queue_put (ch : UInt8) (hLen : pi.len ≤ PIPESIZE) (hFull : pi.full = false) :
    (pi.put ch).queue = pi.queue ++ [ch] ∧ (pi.put ch).len ≤ PIPESIZE := by
  have hNe : pi.len ≠ PIPESIZE := fun hEq => by
    rw [pi.full_iff.mpr hEq] at hFull
    exact absurd hFull (by decide)
  have hLt : pi.len < PIPESIZE := by omega
  have hCap : PIPESIZE < 2 ^ 32 := by decide
  refine ⟨pi.contents_push ch (by decide) hLt hCap, ?_⟩
  show (pi.push PIPESIZE ch).len ≤ PIPESIZE
  rw [pi.len_push ch (by omega)]
  omega

theorem queue_take (hLen : pi.len ≤ PIPESIZE) (hEmpty : pi.empty = false) :
    pi.queue = pi.take.1 :: pi.take.2.queue ∧ pi.take.2.len ≤ PIPESIZE := by
  have hNe : pi.len ≠ 0 := fun hEq => by
    rw [pi.empty_iff.mpr hEq] at hEmpty
    exact absurd hEmpty (by decide)
  refine ⟨pi.contents_pop (by decide) (by omega), ?_⟩
  show pi.pop.len ≤ PIPESIZE
  rw [pi.len_pop (by omega)]
  omega

/-- A byte is put only into a pipe that is open for reading and not full, by a process that is not
killed. -/
theorem writeTurn_put {ch : UInt8} (h : pi.writeTurn killed src n i = .put ch) :
    (i : Int) < n ∧ pi.readopen = true ∧ killed = false ∧ pi.full = false ∧ src i = some ch := by
  unfold writeTurn at h
  split at h
  · rename_i hlt
    split at h
    · cases h
    · rename_i hOpen
      rw [not_or, Bool.not_eq_false, Bool.not_eq_true] at hOpen
      split at h
      · cases h
      · rename_i hFull
        split at h
        · rename_i b hb
          cases h
          exact ⟨hlt, hOpen.1, hOpen.2, Bool.not_eq_true _ ▸ hFull, hb⟩
        · cases h
  · cases h

theorem writeTurn_abort (h : pi.writeTurn killed src n i = .abort) :
    (i : Int) < n ∧ (pi.readopen = false ∨ killed = true) := by
  unfold writeTurn at h
  split at h
  · refine ⟨‹_›, ?_⟩
    split at h
    · assumption
    · split at h
      · cases h
      · split at h <;> cases h
  · cases h

theorem writeTurn_full
    (h : pi.writeTurn killed src n i = .full) : pi.readopen = true ∧ pi.full = true := by
  unfold writeTurn at h
  split at h
  · split at h
    · cases h
    · rename_i hOpen
      rw [not_or, Bool.not_eq_false] at hOpen
      split at h
      · exact ⟨hOpen.1, ‹_›⟩
      · split at h <;> cases h
  · cases h

theorem writeTurn_stop {k : Nat} (h : pi.writeTurn killed src n i = .stop k) : k = i := by
  unfold writeTurn at h
  repeat' split at h
  all_goals first
    | cases h
      rfl
    | cases h

/-- `copyTurn` takes bytes only from a pipe that has some. -/
theorem copyTurn_taken {ok : Nat → Bool} {k : Nat} {ch : UInt8}
    (h : pi.copyTurn ok n i = .take ch ∨ pi.copyTurn ok n i = .lose ch k) :
    pi.empty = false ∧ ch = pi.take.1 := by
  unfold copyTurn at h
  split at h
  · split at h
    · simp at h
    · rename_i hEmpty
      refine ⟨Bool.not_eq_true _ ▸ hEmpty, ?_⟩
      split at h
      · rcases h with h | h
        · cases h
          rfl
        · cases h
      · rcases h with h | h
        · cases h
        · cases h
          rfl
  · simp at h

theorem copyTurn_cases (pi : Pipe) (ok : Nat → Bool) (n : Int) (i : Nat) :
    pi.copyTurn ok n i = .stop i ∨ (∃ ch, pi.copyTurn ok n i = .take ch) ∨
      ∃ ch, pi.copyTurn ok n i = .lose ch i := by
  unfold copyTurn
  split
  · split
    · exact Or.inl rfl
    · split
      · exact Or.inr (Or.inl ⟨_, rfl⟩)
      · exact Or.inr (Or.inr ⟨_, rfl⟩)
  · exact Or.inl rfl

theorem waitTurn_cases (pi : Pipe) (killed : Bool) :
    pi.waitTurn killed = .abort ∨ pi.waitTurn killed = .empty ∨ pi.waitTurn killed = .go := by
  unfold waitTurn
  split
  · split
    · exact Or.inl rfl
    · exact Or.inr (Or.inl rfl)
  · exact Or.inr (Or.inr rfl)

end Pipe

/-! ## What a step can do -/

namespace PipeSys

/-- The steps of the system, one constructor for each kind. -/
inductive Move (s : PipeSys) : PipeAct → PipeSys → Prop where
  | callWrite {p : Nat} {src : Nat → Option UInt8} {n : Int} (hPc : (s.proc p).pc = .idle) :
      Move s (.callWrite p src n) (s.setPc p (.wEnter src n))
  | callRead {p : Nat} {ok : Nat → Bool} {n : Int} (hPc : (s.proc p).pc = .idle) :
      Move s (.callRead p ok n) (s.setPc p (.rEnter ok n))
  | acquire {p : Nat} {pc : PipePc} (hLock : s.lock = none) (hAwake : (s.proc p).sleeping = none)
      (hPc : entered (s.proc p).pc = some pc) :
      Move s (.acquire p) { s.setPc p pc with lock := some p }
  | write {p : Nat} {src : Nat → Option UInt8} {n : Int} {i : Nat} {t : WriteTurn}
      (hPc : (s.proc p).pc = .wLoop src n i)
      (hTurn : s.pipe.writeTurn (s.proc p).killed src n i = t) :
      Move s (.write p t) (s.afterWrite p src n i t)
  | wait {p : Nat} {ok : Nat → Bool} {n : Int} {t : ReadTurn} (hPc : (s.proc p).pc = .rWait ok n)
      (hTurn : s.pipe.waitTurn (s.proc p).killed = t) :
      Move s (.read p t) (s.afterRead p ok n 0 t)
  | copy {p : Nat} {ok : Nat → Bool} {n : Int} {i : Nat} {t : ReadTurn}
      (hPc : (s.proc p).pc = .rCopy ok n i) (hTurn : s.pipe.copyTurn ok n i = t) :
      Move s (.read p t) (s.afterRead p ok n i t)
  | close {writable : Bool} (hLock : s.lock = none) :
      Move s (.close writable)
        ({ s with pipe := s.pipe.close writable }.wakeup (closeWakes writable))
  | kill {p : Nat} : Move s (.kill p) (s.kill p)

theorem move_of_step (h : s.step a = some (.ok s')) :
    Move s a s' := by
  cases a with
  | callWrite p src n =>
    rw [step] at h
    split at h
    · cases h
      exact .callWrite ‹_›
    · cases h
  | callRead p ok n =>
    rw [step] at h
    split at h
    · cases h
      exact .callRead ‹_›
    · cases h
  | acquire p =>
    rw [step] at h
    split at h
    · rename_i hFree
      split at h
      · cases h
        exact .acquire hFree.1 hFree.2 ‹_›
      · cases h
    · cases h
  | write p t =>
    rw [step] at h
    split at h
    · split at h
      · cases h
        exact .write ‹_› ‹_›
      · cases h
    · cases h
  | read p t =>
    rw [step] at h
    split at h
    · split at h
      · cases h
        exact .wait ‹_› ‹_›
      · cases h
    · split at h
      · cases h
        exact .copy ‹_› ‹_›
      · cases h
    · cases h
  | close writable =>
    rw [step] at h
    split at h
    · cases h
      exact .close ‹_›
    · cases h
  | kill p =>
    cases h
    exact .kill

@[simp] theorem setPc_pipe (s : PipeSys) (p : Nat) (pc : PipePc) : (s.setPc p pc).pipe = s.pipe := rfl
@[simp] theorem setPc_lock (s : PipeSys) (p : Nat) (pc : PipePc) : (s.setPc p pc).lock = s.lock := rfl
@[simp] theorem wakeup_pipe (s : PipeSys) (ch : PipeChan) : (s.wakeup ch).pipe = s.pipe := rfl
@[simp] theorem wakeup_lock (s : PipeSys) (ch : PipeChan) : (s.wakeup ch).lock = s.lock := rfl
@[simp] theorem sleep_pipe (s : PipeSys) (p : Nat) (ch : PipeChan) (pc : PipePc) :
    (s.sleep p ch pc).pipe = s.pipe := rfl
@[simp] theorem sleep_lock (s : PipeSys) (p : Nat) (ch : PipeChan) (pc : PipePc) :
    (s.sleep p ch pc).lock = none := rfl
@[simp] theorem ret_pipe (s : PipeSys) (p : Nat) : (s.ret p).pipe = s.pipe := rfl
@[simp] theorem ret_lock (s : PipeSys) (p : Nat) : (s.ret p).lock = none := rfl

theorem setPc_proc (s : PipeSys) (p q : Nat) (pc : PipePc) :
    (s.setPc p pc).proc q = if q = p then { s.proc p with pc := pc } else s.proc q :=
  upd_apply ..

theorem ret_proc (s : PipeSys) (p q : Nat) :
    (s.ret p).proc q = if q = p then { s.proc p with pc := .idle } else s.proc q :=
  upd_apply ..

theorem sleep_proc (s : PipeSys) (p q : Nat) (ch : PipeChan) (pc : PipePc) :
    (s.sleep p ch pc).proc q =
      if q = p then { s.proc p with sleeping := some ch, pc := pc } else s.proc q :=
  upd_apply ..

theorem kill_proc (s : PipeSys) (p q : Nat) :
    (s.kill p).proc q =
      if q = p then { s.proc p with killed := true, sleeping := none } else s.proc q :=
  upd_apply ..

theorem wakeup_proc (s : PipeSys) (ch : PipeChan) (q : Nat) :
    (s.wakeup ch).proc q =
      if (s.proc q).sleeping = some ch then { s.proc q with sleeping := none } else s.proc q :=
  rfl

@[simp] theorem wakeup_pc (s : PipeSys) (ch : PipeChan) (q : Nat) :
    ((s.wakeup ch).proc q).pc = (s.proc q).pc := by
  rw [wakeup_proc]
  split <;> rfl

@[simp] theorem wakeup_killed (s : PipeSys) (ch : PipeChan) (q : Nat) :
    ((s.wakeup ch).proc q).killed = (s.proc q).killed := by
  rw [wakeup_proc]
  split <;> rfl

theorem wakeup_sleeping {ch c : PipeChan} {q : Nat} :
    ((s.wakeup ch).proc q).sleeping = some c ↔ (s.proc q).sleeping = some c ∧ c ≠ ch := by
  rw [wakeup_proc]
  split
  · rename_i hOld
    rw [hOld]
    simp only [reduceCtorEq, Option.some.injEq, false_iff, not_and, not_not]
    exact Eq.symm
  · rename_i hOld
    constructor
    · intro hc
      exact ⟨hc, fun hEq => hOld (hEq ▸ hc)⟩
    · exact And.left

end PipeSys

/-! ## The queue -/

/-- The bytes put so far by the call in which a process is. -/
def WriteNoted (c : Option WriteCall) : PipePc → Prop
  | .wEnter src n => c = some { src := src, n := n, put := [] }
  | .wLoop src n i | .wSleep src n i =>
    ∃ l : List UInt8, c = some { src := src, n := n, put := l } ∧ l.map some = (List.range i).map src
  | _ => True

structure FifoInv (tr : List PipeAct) (s : PipeSys) : Prop where
  bound    : s.pipe.len ≤ PIPESIZE
  conserve : bytesPut tr = bytesTaken tr ++ s.pipe.queue
  calls    : ∀ p, WriteNoted (lastWrite p tr) (s.proc p).pc

theorem bytesPut_append (tr : List PipeAct) (a : PipeAct) :
    bytesPut (tr ++ [a]) = bytesPut tr ++ a.put := by
  simp [bytesPut]

theorem bytesTaken_append (tr : List PipeAct) (a : PipeAct) :
    bytesTaken (tr ++ [a]) = bytesTaken tr ++ a.taken := by
  simp [bytesTaken]

theorem lastWrite_append (p : Nat) (tr : List PipeAct) (a : PipeAct) :
    lastWrite p (tr ++ [a]) = WriteCall.note p (lastWrite p tr) a := by
  simp [lastWrite]

/-- The pipe and the processes after one step of the history. -/
theorem FifoInv.next (h : FifoInv tr s)
    (hBound : s'.pipe.len ≤ PIPESIZE)
    (hQueue : s.pipe.queue ++ a.put = a.taken ++ s'.pipe.queue)
    (hCalls : ∀ p, WriteNoted (WriteCall.note p (lastWrite p tr) a) (s'.proc p).pc) :
    FifoInv (tr ++ [a]) s' where
  bound := hBound
  conserve := by
    rw [bytesPut_append, bytesTaken_append, h.conserve, List.append_assoc, hQueue,
      List.append_assoc]
  calls p := by
    rw [lastWrite_append]
    exact hCalls p

/-- Processes other than `p`, and `p` itself if it is outside `pipewrite` afterwards. -/
theorem FifoInv.calls_of (h : FifoInv tr s)
    (p : Nat) (hSame : ∀ q ≠ p, (s'.proc q).pc = (s.proc q).pc)
    (hNote : ∀ q ≠ p, WriteCall.note q (lastWrite q tr) a = lastWrite q tr)
    (hSelf : WriteNoted (WriteCall.note p (lastWrite p tr) a) (s'.proc p).pc) (q : Nat) :
    WriteNoted (WriteCall.note q (lastWrite q tr) a) (s'.proc q).pc := by
  by_cases hq : q = p
  · rw [hq]
    exact hSelf
  · rw [hSame q hq, hNote q hq]
    exact h.calls q

theorem FifoInv.write {p : Nat} {t : WriteTurn} (h : FifoInv tr s) (hPc : (s.proc p).pc = .wLoop src n i)
    (hTurn : s.pipe.writeTurn (s.proc p).killed src n i = t) :
    FifoInv (tr ++ [.write p t]) (s.afterWrite p src n i t) := by
  have hCall := h.calls p
  rw [hPc] at hCall
  cases t with
  | abort =>
    refine h.next h.bound (List.append_nil _) (h.calls_of p (fun q hq => ?_) (fun _ _ => rfl) ?_)
    · rw [PipeSys.afterWrite, PipeSys.ret_proc, if_neg hq]
    · rw [PipeSys.afterWrite, PipeSys.ret_proc, if_pos rfl]
      trivial
  | full =>
    refine h.next h.bound (List.append_nil _) (h.calls_of p (fun q hq => ?_) (fun _ _ => rfl) ?_)
    · rw [PipeSys.afterWrite, PipeSys.sleep_proc, if_neg hq, PipeSys.wakeup_pc]
    · rw [PipeSys.afterWrite, PipeSys.sleep_proc, if_pos rfl]
      exact hCall
  | stop k =>
    refine h.next h.bound (List.append_nil _) (h.calls_of p (fun q hq => ?_) (fun _ _ => rfl) ?_)
    · rw [PipeSys.afterWrite, PipeSys.ret_proc, if_neg hq, PipeSys.wakeup_pc]
    · rw [PipeSys.afterWrite, PipeSys.ret_proc, if_pos rfl]
      trivial
  | put ch =>
    obtain ⟨-, -, -, hFull, hByte⟩ := Pipe.writeTurn_put hTurn
    obtain ⟨hQueue, hBound⟩ := Pipe.queue_put ch h.bound hFull
    refine h.next hBound hQueue.symm (h.calls_of p (fun q hq => ?_) (fun q hq => ?_) ?_)
    · rw [PipeSys.afterWrite, PipeSys.setPc_proc, if_neg hq]
    · rw [WriteCall.note, if_neg (Ne.symm hq)]
    · -- one more byte of the buffer is in
      obtain ⟨l, hLast, hl⟩ := hCall
      rw [PipeSys.afterWrite, PipeSys.setPc_proc, if_pos rfl, WriteCall.note, if_pos rfl, hLast]
      refine ⟨l ++ [ch], rfl, ?_⟩
      rw [List.map_append, hl, List.range_succ, List.map_append, List.map_singleton,
        List.map_singleton, hByte]

theorem FifoInv.read {p : Nat} {ok : Nat → Bool} {t : ReadTurn} (h : FifoInv tr s)
    (hTaken : ∀ ch k, t = .take ch ∨ t = .lose ch k → s.pipe.empty = false ∧ ch = s.pipe.take.1) :
    FifoInv (tr ++ [.read p t]) (s.afterRead p ok n i t) := by
  have hOther : ∀ q ≠ p, ((s.afterRead p ok n i t).proc q).pc = (s.proc q).pc := by
    intro q hq
    cases t with
    | abort => rw [PipeSys.afterRead, PipeSys.ret_proc, if_neg hq]
    | empty => rw [PipeSys.afterRead, PipeSys.sleep_proc, if_neg hq]
    | go | take => rw [PipeSys.afterRead, PipeSys.setPc_proc, if_neg hq]
    | lose | stop => rw [PipeSys.afterRead, PipeSys.ret_proc, if_neg hq, PipeSys.wakeup_pc]
  have hSelf : ∀ c, WriteNoted c ((s.afterRead p ok n i t).proc p).pc := by
    intro c
    cases t with
    | abort | lose | stop => rw [PipeSys.afterRead, PipeSys.ret_proc, if_pos rfl]; trivial
    | empty => rw [PipeSys.afterRead, PipeSys.sleep_proc, if_pos rfl]; trivial
    | go | take => rw [PipeSys.afterRead, PipeSys.setPc_proc, if_pos rfl]; trivial
  have hCalls := h.calls_of (a := .read p t) p hOther (fun _ _ => rfl) (hSelf _)
  cases t with
  | take ch =>
    obtain ⟨hEmpty, rfl⟩ := hTaken ch 0 (Or.inl rfl)
    obtain ⟨hQueue, hBound⟩ := Pipe.queue_take h.bound hEmpty
    exact h.next hBound ((List.append_nil _).trans hQueue) hCalls
  | lose ch k =>
    obtain ⟨hEmpty, rfl⟩ := hTaken ch k (Or.inr rfl)
    obtain ⟨hQueue, hBound⟩ := Pipe.queue_take h.bound hEmpty
    exact h.next hBound ((List.append_nil _).trans hQueue) hCalls
  | abort | empty | go | stop => exact h.next h.bound (List.append_nil _) hCalls

theorem FifoInv.step (h : FifoInv tr s)
    (hMove : PipeSys.Move s a s') : FifoInv (tr ++ [a]) s' := by
  cases hMove with
  | @callWrite p src n hPc =>
    refine h.next h.bound (List.append_nil _) (h.calls_of p (fun q hq => ?_) (fun q hq => ?_) ?_)
    · rw [PipeSys.setPc_proc, if_neg hq]
    · rw [WriteCall.note, if_neg (Ne.symm hq)]
    · rw [PipeSys.setPc_proc, if_pos rfl, WriteCall.note, if_pos rfl]
      rfl
  | @callRead p ok n hPc =>
    refine h.next h.bound (List.append_nil _) (h.calls_of p (fun q hq => ?_) (fun _ _ => rfl) ?_)
    · rw [PipeSys.setPc_proc, if_neg hq]
    · rw [PipeSys.setPc_proc, if_pos rfl]
      trivial
  | @acquire p pc hLock hAwake hPc =>
    have hCall := h.calls p
    refine h.next h.bound (List.append_nil _) (h.calls_of p (fun q hq => ?_) (fun _ _ => rfl) ?_)
    · show ((s.setPc p pc).proc q).pc = _
      rw [PipeSys.setPc_proc, if_neg hq]
    · show WriteNoted (lastWrite p tr) ((s.setPc p pc).proc p).pc
      rw [PipeSys.setPc_proc, if_pos rfl]
      cases hOld : (s.proc p).pc with
      | wEnter src n =>
        rw [hOld] at hPc hCall
        cases hPc
        exact ⟨[], hCall, rfl⟩
      | wSleep src n i =>
        rw [hOld] at hPc hCall
        cases hPc
        exact hCall
      | _ =>
        rw [hOld] at hPc
        cases hPc
        try trivial
  | write hPc hTurn => exact h.write hPc hTurn
  | wait hPc hTurn =>
    refine h.read fun ch k hEq => ?_
    rcases s.pipe.waitTurn_cases (s.proc _).killed with hW | hW | hW <;>
    · rw [← hTurn, hW] at hEq
      simp at hEq
  | copy hPc hTurn => exact h.read fun ch k hEq => Pipe.copyTurn_taken (hTurn ▸ hEq)
  | @close writable hLock =>
    refine h.next ?_ ?_ fun q => ?_
    · rw [PipeSys.wakeup_pipe]
      cases writable <;> exact h.bound
    · rw [PipeSys.wakeup_pipe]
      cases writable <;> exact List.append_nil _
    · rw [PipeSys.wakeup_pc]
      exact h.calls q
  | @kill p =>
    refine h.next h.bound (List.append_nil _) (h.calls_of p (fun q hq => ?_) (fun _ _ => rfl) ?_)
    · rw [PipeSys.kill_proc, if_neg hq]
    · rw [PipeSys.kill_proc, if_pos rfl]
      exact h.calls p

theorem fifoInv (h : pipeLts.Run tr s) : FifoInv tr s := by
  refine h.invariant ?_ ?_
  · rintro s ⟨⟨data, hPipe⟩, -, hProc⟩
    have hLen : s.pipe.len = 0 := by
      rw [hPipe]
      exact (RingBuf.isEmpty_iff _).mp rfl
    refine ⟨by omega, ?_, fun p => ?_⟩
    · have hQueue : s.pipe.queue = [] := List.length_eq_zero_iff.mp (by
        rw [Pipe.queue, RingBuf.length_contents, hLen])
      rw [hQueue]
      rfl
    · rw [(hProc p).2]
      trivial
  · intro tr s a s' _ hInv hStep
    exact hInv.step (PipeSys.move_of_step hStep)

/-- A pipe is a bounded queue. -/
theorem pipe_fifo {tr : List PipeAct} {s : PipeSys} (h : pipeLts.Run tr s) :
    (s.pipe.nwrite - s.pipe.nread).toNat ≤ PIPESIZE ∧
    bytesTaken tr <+: bytesPut tr ∧
    ∀ p k s', pipeLts.step s (.write p (.stop k)) = some (.ok s') →
      ∃ c, lastWrite p tr = some c ∧ c.put.map some = (List.range k).map c.src := by
  have hInv := fifoInv h
  refine ⟨hInv.bound, ⟨_, hInv.conserve.symm⟩, ?_⟩
  intro p k s' hStep
  generalize hAct : PipeAct.write p (.stop k) = a at hStep
  cases PipeSys.move_of_step hStep with
  | @write q src n i t hPc hTurn =>
    cases hAct
    have hCall := hInv.calls p
    rw [hPc] at hCall
    obtain ⟨l, hLast, hl⟩ := hCall
    rw [Pipe.writeTurn_stop hTurn]
    exact ⟨_, hLast, hl⟩
  | _ => cases hAct

/-- A new pipe, and processes that were not killed. -/
def PipeSys.initial : PipeSys where
  pipe := Pipe.alloc fun _ => 0
  lock := none
  proc _ := { killed := false, sleeping := none, pc := .idle }

theorem PipeSys.init_initial : pipeLts.init PipeSys.initial :=
  ⟨⟨_, rfl⟩, rfl, fun _ => ⟨rfl, rfl⟩⟩

/-- Process 0 writes a byte, process 1 reads it, process 2 has written two more. -/
def threeBytes : List PipeAct :=
  [.callWrite 0 (fun i => [7][i]?) 1, .acquire 0, .write 0 (.put 7), .write 0 (.stop 1),
    .callRead 1 (fun _ => true) 1, .acquire 1, .read 1 .go, .read 1 (.take 7), .read 1 (.stop 1),
    .callWrite 2 (fun i => [8, 9][i]?) 2, .acquire 2, .write 2 (.put 8), .write 2 (.put 9)]

theorem pipe_fifo_threeBytes :
    ∃ s, pipeLts.Run threeBytes s ∧ bytesTaken threeBytes = [7] ∧ bytesPut threeBytes = [7, 8, 9] ∧
      (∃ s', pipeLts.step s (.write 2 (.stop 2)) = some (.ok s')) ∧
      ∃ c, lastWrite 2 threeBytes = some c ∧ c.put.map some = (List.range 2).map c.src := by
  obtain ⟨s, s', hExec, hStep⟩ : ∃ s s', pipeLts.exec PipeSys.initial threeBytes = some s ∧
      pipeLts.step s (.write 2 (.stop 2)) = some (.ok s') := ⟨_, _, rfl, rfl⟩
  have hRun := Lts.run_of_exec (Lts.Run.start PipeSys.init_initial) hExec
  exact ⟨s, hRun, rfl, rfl, ⟨s', hStep⟩, (pipe_fifo hRun).2.2 2 2 s' hStep⟩

end Xv6
