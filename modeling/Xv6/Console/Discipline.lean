import Xv6.Console.Model

/-!
# xv6 — the line discipline of the console

What the console is for, without indices: characters are `committed` line by line, the line that is
being typed (`edit`) can be edited, and readers have `taken` some of what is committed. `Tty` is
that; it is a function of the history (`tty`). The ring buffer holds what is committed and not taken,
up to `w`, and then the line being typed (`Cons.View`), across any number of wraps of the indices.

Results:

* `console_line_discipline` — the buffer is never overrun, editing does not reach what is committed,
  and readers get the committed characters in order, in pieces that end as lines and `^D` say.
-/

namespace Xv6

/-! ## The console as a terminal -/

structure Tty where
  committed : List UInt8
  edit      : List UInt8
  taken     : Nat
  deriving DecidableEq, Repr

namespace Tty

/-- What is committed and not yet taken. -/
def unread (t : Tty) : List UInt8 := t.committed.drop t.taken

/-- A character is typed. -/
def type (t : Tty) (c : UInt8) : Tty :=
  if c = ctrl 'P' then t
  else if c = ctrl 'U' then { t with edit := [] }
  else if c = ctrl 'H' ∨ c = 0x7f then { t with edit := t.edit.dropLast }
  else if c ≠ 0 ∧ (t.unread ++ t.edit).length < INPUT_BUF then
    let c := if c = 13 then newline else c
    let edit := t.edit ++ [c]
    if c = newline ∨ c = ctrl 'D' ∨ (t.unread ++ edit).length = INPUT_BUF then
      { t with committed := t.committed ++ edit, edit := [] }
    else { t with edit := edit }
  else t

def act (t : Tty) : ConsAct → Tty
  | .type c => t.type c
  | .turn (.take _) => { t with taken := t.taken + 1 }
  | .turn (.eof false) => { t with taken := t.taken + 1 }
  | _ => t

end Tty

/-- The terminal after a history. -/
def tty (tr : List ConsAct) : Tty := tr.foldl Tty.act { committed := [], edit := [], taken := 0 }

/-- A call of `consoleread` that has returned: its argument, the bytes it copied to the user, and
whether it stopped at a `^D`. -/
structure ConsRead where
  n     : BitVec 32
  bytes : List UInt8
  eof   : Bool
  deriving DecidableEq, Repr

/-- The calls that have returned, and the bytes that the call in progress has copied. -/
structure ReadLog where
  done : List ConsRead
  n    : BitVec 32
  got  : List UInt8
  deriving DecidableEq, Repr

namespace ReadLog

/-- The call in progress returns. -/
def finish (l : ReadLog) (bytes : List UInt8) (eof : Bool) : ReadLog :=
  { l with done := l.done ++ [{ n := l.n, bytes, eof }], got := [] }

def act (l : ReadLog) : ConsAct → ReadLog
  | .call n => { l with n := n, got := [] }
  | .turn (.take c) =>
    if c = newline then l.finish (l.got ++ [c]) false else { l with got := l.got ++ [c] }
  | .turn (.eof _) => l.finish l.got true
  | .turn .done => l.finish l.got false
  | _ => l

end ReadLog

def readLog (tr : List ConsAct) : ReadLog := tr.foldl ReadLog.act { done := [], n := 0, got := [] }

/-- The calls that have returned, in order. -/
def reads (tr : List ConsAct) : List ConsRead := (readLog tr).done

@[simp] theorem tty_append (tr : List ConsAct) (a : ConsAct) : tty (tr ++ [a]) = (tty tr).act a := by
  simp [tty]

@[simp] theorem readLog_append (tr : List ConsAct) (a : ConsAct) :
    readLog (tr ++ [a]) = (readLog tr).act a := by
  simp [readLog]

/-! ## The buffer as two lists -/

namespace Cons

/-- From `r` to `w` the buffer holds `u`, from `w` to `e` it holds `d`. -/
structure View (s : Cons) (u d : List UInt8) : Prop where
  cells : s.contents INPUT_BUF = u ++ d
  mark  : (s.w - s.r).toNat = u.length
  bound : (u ++ d).length ≤ INPUT_BUF

variable {s : Cons} {u d : List UInt8} {c : UInt8}

theorem input_buf_dvd : INPUT_BUF ∣ 2 ^ 32 := by decide

theorem View.len (h : View s u d) : (s.e - s.r).toNat = u.length + d.length := by
  rw [← List.length_append, ← h.cells, RingBuf.length_contents]
  rfl

/-- Indices that are as far from `r` are the same. -/
theorem index_inj {x y z : BitVec 32} (h : (x - z).toNat = (y - z).toNat) : x = y := by
  have hSub : x - z = y - z := BitVec.eq_of_toNat_eq h
  rw [← BitVec.sub_add_cancel x z, hSub, BitVec.sub_add_cancel]

theorem View.edit_empty (h : View s u d) : s.e = s.w ↔ d = [] := by
  constructor
  · intro hEq
    have hLen := h.len
    rw [hEq, h.mark] at hLen
    exact List.eq_nil_of_length_eq_zero (by omega)
  · intro hNil
    refine index_inj (z := s.r) ?_
    rw [h.len, h.mark, hNil, List.length_nil, Nat.add_zero]

theorem View.unread_empty (h : View s u d) : s.r = s.w ↔ u = [] := by
  constructor
  · intro hEq
    have hMark := h.mark
    rw [hEq, BitVec.sub_self] at hMark
    exact List.eq_nil_of_length_eq_zero hMark.symm
  · intro hNil
    refine (index_inj (z := s.r) ?_).symm
    rw [h.mark, hNil, BitVec.sub_self]
    rfl

theorem View.edit_len (h : View s u d) : (s.e - s.w).toNat = d.length := by
  have hSub : s.e - s.w = (s.e - s.r) - (s.w - s.r) := by bv_omega
  have hLen := h.len
  have hMark := h.mark
  rw [hSub, BitVec.toNat_sub_of_le, hLen, hMark, Nat.add_sub_cancel_left]
  rw [BitVec.le_def, hLen, hMark]
  exact Nat.le_add_right _ _

theorem View.full_iff (h : View s u d) :
    s.e = s.r + BitVec.ofNat 32 INPUT_BUF ↔ (u ++ d).length = INPUT_BUF := by
  have hFull : s.e = s.r + BitVec.ofNat 32 INPUT_BUF ↔ s.len = INPUT_BUF := s.isFull_iff (by decide)
  rw [show s.len = (s.contents INPUT_BUF).length from s.length_contents.symm, h.cells] at hFull
  exact hFull

theorem View.back (h : View s u (d ++ [c])) : s.last INPUT_BUF = c ∧ View s.back u d := by
  have hLen : 0 < s.len := by
    have := h.len
    rw [List.length_append, List.length_singleton] at this
    show 0 < (s.e - s.r).toNat
    omega
  have hCells := s.contents_back input_buf_dvd hLen
  rw [h.cells, ← List.append_assoc] at hCells
  obtain ⟨hInit, hLast⟩ := List.append_inj' hCells rfl
  refine ⟨(List.cons.inj hLast).1.symm, hInit.symm, h.mark, ?_⟩
  have hBound := h.bound
  rw [List.length_append, List.length_append, List.length_singleton] at hBound
  rw [List.length_append]
  omega

theorem View.put (h : View s u d) (hRoom : (u ++ d).length < INPUT_BUF) (c : UInt8) :
    View (s.put c) u (d ++ [c]) where
  cells := by
    have hLen : s.len < INPUT_BUF := by
      rw [← RingBuf.length_contents, h.cells]
      exact hRoom
    have hCells := s.contents_push c input_buf_dvd hLen (by decide)
    rw [h.cells, List.append_assoc] at hCells
    exact hCells
  mark := h.mark
  bound := by
    rw [List.length_append] at hRoom
    rw [List.length_append, List.length_append, List.length_singleton]
    omega

theorem View.commit (h : View s u d) : View s.commit (u ++ d) [] where
  cells := by
    rw [List.append_nil]
    exact h.cells
  mark := by
    rw [List.length_append]
    exact h.len
  bound := by
    rw [List.append_nil]
    exact h.bound

theorem View.next (h : View s (c :: u) d) : s.head INPUT_BUF = c ∧ View s.next u d := by
  have hLen : 0 < s.len := by
    have := h.len
    rw [List.length_cons] at this
    show 0 < (s.e - s.r).toNat
    omega
  have hCells := s.contents_pop input_buf_dvd hLen
  rw [h.cells, List.cons_append, List.cons.injEq] at hCells
  refine ⟨hCells.1.symm, hCells.2.symm, ?_, ?_⟩
  · -- `w` is one cell closer to `r`
    have hPop := RingBuf.len_pop ({ data := s.data, nread := s.nread, nwrite := s.w } : RingBuf 32 UInt8)
    have hMark := h.mark
    rw [List.length_cons] at hMark
    have hPos : 0 < (s.w - s.nread).toNat := by
      show 0 < (s.w - s.r).toNat
      omega
    have hNext : (s.next.w - s.next.r).toNat = (s.w - s.r).toNat - 1 := hPop hPos
    omega
  · have hBound := h.bound
    rw [List.cons_append, List.length_cons] at hBound
    omega

/-- `^U` takes back the whole line: no character of it is a newline. -/
theorem View.killLine {fuel : Nat} (h : View s u d) (hFuel : d.length ≤ fuel) (hLine : newline ∉ d) :
    View (Cons.killLine fuel s) u [] := by
  induction fuel generalizing s d with
  | zero =>
    obtain rfl : d = [] := List.eq_nil_of_length_eq_zero (by omega)
    exact h
  | succ fuel ih =>
    rw [Cons.killLine]
    rcases List.eq_nil_or_concat' d with rfl | ⟨d', c, rfl⟩
    · rw [if_neg fun hMore => hMore.1 (h.edit_empty.mpr rfl)]
      exact h
    · obtain ⟨hLast, hBack⟩ := h.back
      have hne : s.e ≠ s.w := fun hEq => by
        have := h.edit_empty.mp hEq
        simp at this
      have hc : s.last INPUT_BUF ≠ newline := fun hEq => hLine (by simp [← hEq, hLast])
      rw [if_pos ⟨hne, hc⟩]
      refine ih hBack ?_ fun hMem => hLine (List.mem_append_left _ hMem)
      rw [List.length_append, List.length_singleton] at hFuel
      omega

end Cons

/-! ## The invariant -/

/-- The buffer and the terminal agree. -/
structure TtyInv (s : Cons) (t : Tty) : Prop where
  view  : s.View t.unread t.edit
  taken : t.taken ≤ t.committed.length
  line  : newline ∉ t.edit

theorem Tty.unread_commit {t : Tty} (h : t.taken ≤ t.committed.length) (l : List UInt8) :
    ({ t with committed := t.committed ++ l, edit := [] } : Tty).unread = t.unread ++ l :=
  List.drop_append_of_le_length h

theorem TtyInv.intr {s : Cons} {t : Tty} (h : TtyInv s t) (c : UInt8) :
    TtyInv (s.intr c).1 (t.type c) := by
  obtain ⟨hView, hTaken, hLine⟩ := h
  unfold Cons.intr Tty.type
  by_cases hP : c = ctrl 'P'
  · rw [if_pos hP, if_pos hP]
    exact ⟨hView, hTaken, hLine⟩
  rw [if_neg hP, if_neg hP]
  by_cases hU : c = ctrl 'U'
  · rw [if_pos hU, if_pos hU]
    exact ⟨hView.killLine hView.edit_len.ge hLine, hTaken, List.not_mem_nil⟩
  rw [if_neg hU, if_neg hU]
  by_cases hH : c = ctrl 'H' ∨ c = 0x7f
  · rw [if_pos hH, if_pos hH]
    refine ⟨?_, hTaken, fun hMem => hLine (List.dropLast_subset _ hMem)⟩
    rcases List.eq_nil_or_concat' t.edit with hNil | ⟨d, b, hEdit⟩
    · rw [if_neg (not_not.mpr (hView.edit_empty.mpr hNil))]
      show s.View t.unread t.edit.dropLast
      rw [hNil] at hView ⊢
      exact hView
    · have hne : s.e ≠ s.w := fun hEq => by
        have hNil := hView.edit_empty.mp hEq
        simp [hEdit] at hNil
      rw [if_pos hne]
      show s.back.View t.unread t.edit.dropLast
      rw [hEdit] at hView ⊢
      rw [List.dropLast_concat]
      exact hView.back.2
  rw [if_neg hH, if_neg hH, hView.len, ← List.length_append]
  by_cases hRoom : c ≠ 0 ∧ (t.unread ++ t.edit).length < INPUT_BUF
  · rw [if_pos hRoom, if_pos hRoom]
    generalize (if c = 13 then newline else c) = c
    have hPut := hView.put hRoom.2 c
    by_cases hEnd : c = newline ∨ c = ctrl 'D' ∨ (t.unread ++ (t.edit ++ [c])).length = INPUT_BUF
    · simp only [hPut.full_iff, if_pos hEnd]
      refine ⟨?_, ?_, List.not_mem_nil⟩
      · rw [Tty.unread_commit hTaken]
        exact hPut.commit
      · exact hTaken.trans (List.length_append ▸ Nat.le_add_right _ _)
    · simp only [hPut.full_iff, if_neg hEnd]
      refine ⟨hPut, hTaken, fun hMem => ?_⟩
      rcases List.mem_append.mp hMem with hOld | hNew
      · exact hLine hOld
      · exact hEnd (.inl (List.mem_singleton.mp hNew).symm)
  · rw [if_neg hRoom, if_neg hRoom]
    exact ⟨hView, hTaken, hLine⟩

/-- Typing adds to what is committed, and changes nothing else but the line being typed. -/
theorem Tty.type_eq (t : Tty) (c : UInt8) :
    ∃ l d, t.type c = { committed := t.committed ++ l, edit := d, taken := t.taken } := by
  have hSame : ∀ d, ({ t with edit := d } : Tty) =
      { committed := t.committed ++ [], edit := d, taken := t.taken } := fun d => by
    rw [List.append_nil]
  unfold Tty.type
  split
  · exact ⟨[], t.edit, hSame _⟩
  split
  · exact ⟨[], _, hSame _⟩
  split
  · exact ⟨[], _, hSame _⟩
  split
  · generalize (if c = 13 then newline else c) = c
    dsimp only
    split
    · exact ⟨_, [], rfl⟩
    · exact ⟨[], _, hSame _⟩
  · exact ⟨[], t.edit, hSame _⟩

/-- A call in progress, with `n` of `target` bytes to go, has copied `l`. -/
structure Copied (target n : BitVec 32) (l : List UInt8) : Prop where
  few  : target.toInt ≤ 0 → n = target ∧ l = []
  more : 0 < target.toInt → l.length + n.toNat = target.toNat
  line : newline ∉ l

/-- What a call that has returned has copied. -/
structure ConsRead.Ok (r : ConsRead) : Prop where
  le   : r.bytes.length ≤ r.n.toInt.toNat
  line : newline ∉ r.bytes.dropLast
  stop : r.bytes.length = r.n.toInt.toNat ∨ r.bytes.getLast? = some newline ∨ r.eof = true

/-- A `^D` met after some bytes ends the next call at once. -/
def EofNext (a b : ConsRead) : Prop := a.eof = true → a.bytes ≠ [] → b.bytes = []

/-- The calls and what they have copied. -/
structure ReadInv (pc : ConsPc) (t : Tty) (l : ReadLog) : Prop where
  bytes : (l.done.map ConsRead.bytes).flatten ++ l.got =
    (t.committed.take t.taken).filter fun c => c ≠ ctrl 'D'
  ok    : ∀ r ∈ l.done, r.Ok
  eof   : l.done.IsChain EofNext
  saved : ∀ r, l.done.getLast? = some r → r.eof = true → r.bytes ≠ [] →
    l.got = [] ∧ t.unread.head? = some (ctrl 'D')
  out   : pc = .idle ∨ (∃ n, pc = .enter n) → l.got = []
  enter : ∀ n, pc = .enter n → l.n = n
  call  : ∀ target n, pc = .loop target n ∨ (∃ w, pc = .asleep target n w) →
    l.n = target ∧ Copied target n l.got

variable {pc : ConsPc} {t : Tty} {l : ReadLog} {c : UInt8} {target n : BitVec 32}

theorem Copied.start (n : BitVec 32) : Copied n n [] where
  few _ := ⟨rfl, rfl⟩
  more _ := Nat.zero_add _
  line := List.not_mem_nil

/-- The loop goes on only for calls with a positive argument. -/
theorem Copied.pos {l : List UInt8} (h : Copied target n l) (hn : 0 < n.toInt) : 0 < target.toInt := by
  by_contra hNot
  have := (h.few (by omega)).1
  rw [this] at hn
  exact hNot hn

theorem toNat_of_pos {x : BitVec 32} (h : 0 < x.toInt) : x.toInt.toNat = x.toNat ∧ 0 < x.toNat := by
  have hInt := BitVec.toInt_eq_toNat_cond x
  have hLt := x.isLt
  split at hInt <;> omega

theorem Copied.le {l : List UInt8} (h : Copied target n l) (hn : 0 < n.toInt) :
    l.length + 1 ≤ target.toInt.toNat := by
  have hPos := h.pos hn
  have hSum := h.more hPos
  have hTarget := toNat_of_pos hPos
  have hRest := toNat_of_pos hn
  omega

theorem Copied.snoc {l : List UInt8} (h : Copied target n l) (hn : 0 < n.toInt) (hc : c ≠ newline) :
    Copied target (n - 1) (l ++ [c]) where
  few hNot := absurd (h.pos hn) (by omega)
  more hPos := by
    have hSum := h.more hPos
    have hRest := toNat_of_pos hn
    have hPred : (n - 1).toNat = n.toNat - 1 := by bv_omega
    rw [List.length_append, List.length_singleton, hPred]
    omega
  line hMem := by
    rcases List.mem_append.mp hMem with hOld | hNew
    · exact h.line hOld
    · exact hc (List.mem_singleton.mp hNew).symm

/-- When the loop ends, all that was asked for has been copied. -/
theorem Copied.all {l : List UInt8} (h : Copied target n l) (hn : ¬ 0 < n.toInt) :
    l.length = target.toInt.toNat := by
  by_cases hPos : 0 < target.toInt
  · have hSum := h.more hPos
    have hTarget := toNat_of_pos hPos
    have hInt := BitVec.toInt_eq_toNat_cond n
    have hBound := BitVec.toInt_eq_toNat_cond target
    split at hInt <;> split at hBound <;> omega
  · rw [(h.few (by omega)).2, List.length_nil]
    omega

theorem take_succ_of_drop {α : Type} {x : List α} {k : Nat} {a : α} {rest : List α}
    (h : x.drop k = a :: rest) : x.take (k + 1) = x.take k ++ [a] := by
  have hGet : x[k]? = some a := by
    rw [← List.head?_drop, h]
    rfl
  rw [List.take_add_one, hGet]
  rfl

/-- A character is typed. -/
theorem ReadInv.type (h : ReadInv pc t l) (hTaken : t.taken ≤ t.committed.length)
    (hLock : ConsSys.locked pc = false) (wake : Bool) :
    ReadInv (if wake then ConsSys.wakeup pc else pc) (t.type c) l := by
  obtain ⟨new, d, hType⟩ := t.type_eq c
  rw [hType]
  refine ⟨?_, h.ok, h.eof, fun r hr hEof hne => ?_, fun hOut => h.out ?_, fun n hEnter => h.enter n ?_,
    fun target n hCall => h.call target n ?_⟩
  · rw [List.take_append_of_le_length hTaken]
    exact h.bytes
  · obtain ⟨hGot, hHead⟩ := h.saved r hr hEof hne
    refine ⟨hGot, ?_⟩
    show ((t.committed ++ new).drop t.taken).head? = _
    rw [List.drop_append_of_le_length hTaken, List.head?_append, ← Tty.unread, hHead]
    rfl
  all_goals cases pc <;> cases wake <;> simp_all [ConsSys.wakeup, ConsSys.locked]

/-- The call in progress returns. -/
theorem ReadInv.finish {t' : Tty} {bytes : List UInt8} {eof : Bool} (h : ReadInv pc t l)
    (hOk : ConsRead.Ok { n := l.n, bytes, eof })
    (hBytes : (l.done.map ConsRead.bytes).flatten ++ bytes =
      (t'.committed.take t'.taken).filter fun c => c ≠ ctrl 'D')
    (hNext : ∀ r, l.done.getLast? = some r → EofNext r { n := l.n, bytes, eof })
    (hSaved : eof = true → bytes ≠ [] → t'.unread.head? = some (ctrl 'D')) :
    ReadInv .idle t' (l.finish bytes eof) where
  bytes := by
    rw [ReadLog.finish, List.map_append, List.flatten_append, List.append_nil, ← hBytes]
    simp
  ok r hr := by
    rcases List.mem_append.mp hr with hOld | hNew
    · exact h.ok r hOld
    · rw [List.mem_singleton.mp hNew]
      exact hOk
  eof := by
    refine List.isChain_append.mpr ⟨h.eof, List.isChain_singleton _, fun r hr r' hr' => ?_⟩
    cases hr'
    exact hNext r hr
  saved r hr hEof hne := by
    rw [ReadLog.finish, List.getLast?_concat] at hr
    cases hr
    exact ⟨rfl, hSaved hEof hne⟩
  out _ := rfl
  enter n hEnter := by cases hEnter
  call target n hCall := by simp at hCall

/-- A `^D` that was left behind comes first. -/
theorem ReadInv.eofNext (h : ReadInv pc t l) (r : ConsRead) (hr : l.done.getLast? = some r)
    (n : BitVec 32) (eof : Bool) : EofNext r { n, bytes := l.got, eof } := fun hEof hne =>
  (h.saved r hr hEof hne).1

/-- The reader meets a `^D`. -/
theorem ReadInv.atEof {u : List UInt8} (h : ReadInv (.loop target n) t l) (hn : 0 < n.toInt)
    (hUnread : t.unread = ctrl 'D' :: u) :
    ReadInv .idle (t.act (.turn (.eof (n.ult target)))) (l.act (.turn (.eof (n.ult target)))) := by
  obtain ⟨hTarget, hCopied⟩ := h.call target n (.inl rfl)
  have hLe := hCopied.le hn
  have hSum := hCopied.more (hCopied.pos hn)
  refine h.finish ⟨?_, fun hMem => hCopied.line (List.dropLast_subset _ hMem), .inr (.inr rfl)⟩ ?_
    (fun r hr => h.eofNext r hr _ _) fun _ hne => ?_
  · rw [hTarget]
    exact Nat.le_of_succ_le hLe
  · cases n.ult target with
    | true => exact h.bytes
    | false =>
      show _ = (t.committed.take (t.taken + 1)).filter _
      rw [take_succ_of_drop hUnread, List.filter_append, h.bytes]
      simp
  · -- some bytes were copied, so the `^D` stays where it is
    have hLess : n.ult target = true := by
      rw [BitVec.ult, decide_eq_true_eq]
      have hPos := List.length_pos_iff.mpr hne
      omega
    rw [hLess]
    show t.unread.head? = _
    rw [hUnread]
    rfl

/-- The reader copies a byte. -/
theorem ReadInv.takeByte {u : List UInt8} (h : ReadInv (.loop target n) t l) (hn : 0 < n.toInt)
    (hUnread : t.unread = c :: u) (hc : c ≠ ctrl 'D') :
    ReadInv (if c = newline then .idle else .loop target (n - 1)) { t with taken := t.taken + 1 }
      (l.act (.turn (.take c))) := by
  obtain ⟨hTarget, hCopied⟩ := h.call target n (.inl rfl)
  -- no `^D` was left behind
  have hNoEof : ∀ r, l.done.getLast? = some r → r.eof = true → r.bytes ≠ [] → False := by
    intro r hr hEof hne
    have hHead := (h.saved r hr hEof hne).2
    rw [hUnread] at hHead
    exact hc (Option.some.inj hHead)
  have hBytes : (l.done.map ConsRead.bytes).flatten ++ (l.got ++ [c]) =
      (t.committed.take (t.taken + 1)).filter fun c => c ≠ ctrl 'D' := by
    rw [take_succ_of_drop hUnread, List.filter_append, ← h.bytes]
    simp [hc]
  show ReadInv _ _ (if c = newline then l.finish (l.got ++ [c]) false
    else { l with got := l.got ++ [c] })
  by_cases hLine : c = newline
  · simp only [if_pos hLine]
    refine h.finish ⟨?_, ?_, .inr (.inl ?_)⟩ hBytes
      (fun r hr hEof hne => (hNoEof r hr hEof hne).elim) nofun
    · rw [hTarget, List.length_append, List.length_singleton]
      exact hCopied.le hn
    · rw [List.dropLast_concat]
      exact hCopied.line
    · rw [List.getLast?_concat, hLine]
  · simp only [if_neg hLine]
    refine ⟨hBytes, h.ok, h.eof, fun r hr hEof hne => (hNoEof r hr hEof hne).elim, by simp, by simp,
      fun target' n' hCall => ?_⟩
    simp only [ConsPc.loop.injEq, reduceCtorEq, exists_false, or_false] at hCall
    obtain ⟨rfl, rfl⟩ := hCall
    exact ⟨hTarget, hCopied.snoc hn hLine⟩

theorem ReadInv.turn {s : ConsSys} (h : ReadInv (.loop target n) t l) (hTty : TtyInv s.cons t)
    {x : ConsTurn} (hx : s.cons.turn target n = x) :
    TtyInv (s.afterTurn target n x).cons (t.act (.turn x)) ∧
      ReadInv (s.afterTurn target n x).pc (t.act (.turn x)) (l.act (.turn x)) := by
  obtain ⟨hTarget, hCopied⟩ := h.call target n (.inl rfl)
  unfold Cons.turn at hx
  split at hx
  · rename_i hn
    split at hx
    · -- sleep
      subst hx
      refine ⟨hTty, h.bytes, h.ok, h.eof, h.saved, by simp [ConsSys.afterTurn],
        by simp [ConsSys.afterTurn], fun target' n' hCall => ?_⟩
      simp only [ConsSys.afterTurn, reduceCtorEq, ConsPc.asleep.injEq, false_or] at hCall
      obtain ⟨w, rfl, rfl, -⟩ := hCall
      exact ⟨hTarget, hCopied⟩
    · rename_i hMore
      -- there is a character
      obtain ⟨b, u, hUnread⟩ : ∃ b u, t.unread = b :: u := by
        cases hu : t.unread with
        | nil => exact absurd (hTty.view.unread_empty.mpr hu) hMore
        | cons b u => exact ⟨b, u, rfl⟩
      have hView := hTty.view
      rw [hUnread] at hView
      obtain ⟨hHead, hRest⟩ := hView.next
      have hTake := take_succ_of_drop hUnread
      have hStep : TtyInv s.cons.next { t with taken := t.taken + 1 } := by
        refine ⟨?_, ?_, hTty.line⟩
        · have hDrop : t.committed.drop (t.taken + 1) = u := by
            rw [← List.tail_drop, ← Tty.unread, hUnread]
            rfl
          rw [Tty.unread, hDrop]
          exact hRest
        · have hLen := congrArg List.length hUnread
          rw [Tty.unread, List.length_drop, List.length_cons] at hLen
          show t.taken + 1 ≤ t.committed.length
          omega
      rw [hHead] at hx
      by_cases hb : b = ctrl 'D'
      · rw [if_pos hb] at hx
        subst hx
        refine ⟨?_, h.atEof hn (hb ▸ hUnread)⟩
        cases n.ult target with
        | true => exact hTty
        | false => exact hStep
      · rw [if_neg hb] at hx
        subst hx
        exact ⟨hStep, h.takeByte hn hUnread hb⟩
  · rename_i hn
    subst hx
    refine ⟨hTty, h.finish ⟨?_, ?_, .inl ?_⟩ h.bytes (fun r hr => h.eofNext r hr _ _) nofun⟩
    · rw [hTarget]
      exact (hCopied.all hn).le
    · exact fun hMem => hCopied.line (List.dropLast_subset _ hMem)
    · rw [hTarget]
      exact hCopied.all hn

/-- The state and the history that led to it. -/
structure ConsInv (tr : List ConsAct) (s : ConsSys) : Prop where
  term  : TtyInv s.cons (tty tr)
  calls : ReadInv s.pc (tty tr) (readLog tr)

theorem consInv_step {tr : List ConsAct} {s s' : ConsSys} {a : ConsAct} (h : ConsInv tr s)
    (hStep : consLts.step s a = some (.ok s')) : ConsInv (tr ++ [a]) s' := by
  obtain ⟨hTty, hRead⟩ := h
  cases a with
  | type c =>
    simp only [consLts, ConsSys.step] at hStep
    split at hStep
    · cases hStep
    · rename_i hLock
      cases hStep
      refine ⟨?_, ?_⟩
      · rw [tty_append]
        exact hTty.intr c
      · rw [tty_append, readLog_append]
        exact hRead.type hTty.taken (Bool.not_eq_true _ ▸ hLock) _
  | call n =>
    simp only [consLts, ConsSys.step] at hStep
    split at hStep
    · rename_i hPc
      cases hStep
      have hGot := hRead.out (.inl hPc)
      refine ⟨tty_append tr _ ▸ hTty, ?_⟩
      rw [tty_append, readLog_append]
      refine ⟨?_, hRead.ok, hRead.eof, fun r hr hEof hne => ⟨rfl, (hRead.saved r hr hEof hne).2⟩,
        fun _ => rfl, fun n' hEnter => ?_, by simp⟩
      · have hBytes := hRead.bytes
        rw [hGot] at hBytes
        exact hBytes
      · cases hEnter
        rfl
    · cases hStep
  | acquire =>
    simp only [consLts, ConsSys.step] at hStep
    split at hStep
    · rename_i n hPc
      cases hStep
      have hGot := hRead.out (.inr ⟨n, hPc⟩)
      have hn := hRead.enter n hPc
      refine ⟨tty_append tr _ ▸ hTty, ?_⟩
      rw [tty_append, readLog_append]
      refine ⟨hRead.bytes, hRead.ok, hRead.eof, hRead.saved, by simp, by simp, fun target n' hCall => ?_⟩
      simp only [ConsPc.loop.injEq, reduceCtorEq, exists_false, or_false] at hCall
      obtain ⟨rfl, rfl⟩ := hCall
      refine ⟨hn, ?_⟩
      show Copied n n (readLog tr).got
      rw [hGot]
      exact .start n
    · rename_i target n hPc
      cases hStep
      refine ⟨tty_append tr _ ▸ hTty, ?_⟩
      rw [tty_append, readLog_append]
      refine ⟨hRead.bytes, hRead.ok, hRead.eof, hRead.saved, by simp, by simp, fun target' n' hCall => ?_⟩
      simp only [ConsPc.loop.injEq, reduceCtorEq, exists_false, or_false] at hCall
      obtain ⟨rfl, rfl⟩ := hCall
      exact hRead.call target n (.inr ⟨true, hPc⟩)
    · cases hStep
  | turn x =>
    simp only [consLts, ConsSys.step] at hStep
    split at hStep
    · rename_i target n hPc
      split at hStep
      · rename_i hx
        cases hStep
        rw [hPc] at hRead
        obtain ⟨hTty', hRead'⟩ := hRead.turn hTty hx
        exact ⟨tty_append tr _ ▸ hTty', tty_append tr _ ▸ readLog_append tr _ ▸ hRead'⟩
      · cases hStep
    · cases hStep

theorem consInv_run {tr : List ConsAct} {s : ConsSys} (h : consLts.Run tr s) : ConsInv tr s := by
  refine h.invariant (fun s hs => ?_) fun tr s a s' _ hInv hStep => consInv_step hInv hStep
  cases hs
  exact ⟨⟨⟨rfl, rfl, by decide⟩, Nat.le_refl 0, List.not_mem_nil⟩, rfl, nofun, .nil, nofun, fun _ => rfl,
    nofun, by simp⟩

/-! ## The result -/

/-- The characters of the buffer from `r` to `w`. -/
def Cons.committed (s : Cons) : List UInt8 := (s.contents INPUT_BUF).take (s.w - s.r).toNat

theorem TtyInv.committed_eq {s : Cons} (h : TtyInv s t) : s.committed = t.unread := by
  rw [Cons.committed, h.view.cells, h.view.mark, List.take_left]

/-- Backspace and kill-line. -/
def erases (c : UInt8) : Prop := c = ctrl 'U' ∨ c = ctrl 'H' ∨ c = 0x7f

theorem Tty.type_erases (t : Tty) (h : erases c) : (t.type c).unread = t.unread := by
  unfold Tty.type
  rcases h with rfl | rfl | rfl <;> rfl

theorem Copied.value {l : List UInt8} (h : Copied target n l) : (target - n).toNat = l.length := by
  by_cases hPos : 0 < target.toInt
  · have hSum := h.more hPos
    bv_omega
  · obtain ⟨rfl, rfl⟩ := h.few (by omega)
    rw [BitVec.sub_self]
    rfl

/-- The console is a terminal. The buffer holds what is committed and not yet read, and the line
being typed; typing never reaches back behind `w`; what readers have got is what was committed but for
the `^D`s, and what is still to be read follows it; every call ends after its `n` bytes, after a newline
or at a `^D`, and a `^D` that some bytes precede is found again by the next call. -/
theorem console_line_discipline {tr : List ConsAct} {s : ConsSys} (h : consLts.Run tr s) :
    ((s.cons.w - s.cons.r).toNat ≤ (s.cons.e - s.cons.r).toNat ∧
      (s.cons.e - s.cons.r).toNat ≤ INPUT_BUF ∧ s.cons.View (tty tr).unread (tty tr).edit) ∧
    (∀ c s', consLts.step s (.type c) = some (.ok s') →
      s.cons.committed <+: s'.cons.committed ∧ (erases c → s'.cons.committed = s.cons.committed)) ∧
    (((reads tr).map ConsRead.bytes).flatten <+: (tty tr).committed.filter fun c => c ≠ ctrl 'D') ∧
    ((reads tr).map ConsRead.bytes).flatten ++ (readLog tr).got ++
        s.cons.committed.filter (fun c => c ≠ ctrl 'D') =
      (tty tr).committed.filter (fun c => c ≠ ctrl 'D') ∧
    (∀ target n, s.pc = .loop target n → (target - n).toNat = (readLog tr).got.length) ∧
    (∀ r ∈ reads tr, r.Ok) ∧ (reads tr).IsChain EofNext := by
  obtain ⟨hTty, hRead⟩ := consInv_run h
  have hLen := hTty.view.len
  have hAll : ((reads tr).map ConsRead.bytes).flatten ++ (readLog tr).got ++
      s.cons.committed.filter (fun c => c ≠ ctrl 'D') =
      (tty tr).committed.filter (fun c => c ≠ ctrl 'D') := by
    rw [reads, hRead.bytes, hTty.committed_eq, ← List.filter_append, Tty.unread, List.take_append_drop]
  refine ⟨⟨?_, ?_, hTty.view⟩, fun c s' hStep => ?_, ?_, hAll, fun target n hPc => ?_, hRead.ok, hRead.eof⟩
  · rw [hLen, hTty.view.mark]
    exact Nat.le_add_right _ _
  · rw [hLen, ← List.length_append]
    exact hTty.view.bound
  · have hTty' := (consInv_step ⟨hTty, hRead⟩ hStep).term
    rw [tty_append] at hTty'
    rw [hTty.committed_eq, hTty'.committed_eq]
    refine ⟨?_, fun hErase => Tty.type_erases _ hErase⟩
    obtain ⟨new, d, hType⟩ := (tty tr).type_eq c
    show (tty tr).unread <+: ((tty tr).type c).unread
    rw [hType, Tty.unread, Tty.unread, List.drop_append_of_le_length hTty.taken]
    exact List.prefix_append _ _
  · rw [List.append_assoc] at hAll
    exact ⟨_, hAll⟩
  · exact (hRead.call target n (.inl hPc)).2.value

/-- `h`, `x`, a backspace, `i` and `^D` are typed; a call for ten bytes gets two, the next one none. -/
def typedEof : List ConsAct :=
  [.call 10, .acquire, .turn .empty, .type 104, .type 120, .type (ctrl 'H'), .type 105, .type (ctrl 'D'),
    .acquire, .turn (.take 104), .turn (.take 105), .turn (.eof true),
    .call 5, .acquire, .turn (.eof false)]

theorem console_line_discipline_typedEof :
    ∃ s, consLts.Run typedEof s ∧
      reads typedEof = [{ n := 10, bytes := [104, 105], eof := true }, { n := 5, bytes := [], eof := true }] ∧
      ((reads typedEof).map ConsRead.bytes).flatten <+:
        (tty typedEof).committed.filter fun c => c ≠ ctrl 'D' := by
  obtain ⟨s, hExec⟩ : ∃ s, consLts.exec
      { cons := { data := fun _ => 0, nread := 0, nwrite := 0, w := 0 }, pc := .idle } typedEof = some s :=
    ⟨_, rfl⟩
  have hRun := Lts.run_of_exec (Lts.Run.start rfl) hExec
  exact ⟨s, hRun, rfl, (console_line_discipline hRun).2.2.1⟩

end Xv6
