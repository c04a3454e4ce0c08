import Xv6.Log.Model

/-!
# xv6 — crash atomicity of the redo log

`commit` copies the updated blocks to the log, writes the header, copies the
blocks home and clears the header; the machine may stop after any of these
block writes, and again after any block write of the recovery that follows.
`CrashState` lists the disks that can be found then: header clear and the
old home blocks, header written and the log blocks in place, header clear
and the new home blocks. Every stop of `commit` and of `recover_from_log` is one
of them, and a recovery that completes ends in the first or the third.

Main result:

* `commit_crash_atomic` — commit stopped anywhere, recovery stopped any number of
  times and then completed: the home blocks are all old or all new.
-/

namespace Xv6

open ByteBuf

/-- The disks at which the machine can stop while `f` runs: the one it starts
with, and one after each block write. -/
def stopsOf (f : Machine → Machine) (m : Machine) : List Disk :=
  (f { m with stops := [m.disk] }).stops

/-- `Recovered l d d'`: power comes back with disk `d`; `recover_from_log` is stopped
after some of its block writes any number of times, and the last run
completes with disk `d'`. -/
inductive Recovered (start size : Nat) : Disk → Disk → Prop where
  | done (d : Disk) : Recovered start size d (recoverFromLog (boot start size d)).disk
  | stopped {d d₁ d' : Disk} (hStop : d₁ ∈ stopsOf recoverFromLog (boot start size d))
      (hAgain : Recovered start size d₁ d') : Recovered start size d d'

/-- The disk after the updates `ups`, in order. -/
def applyUpdates (d : Disk) : List (Nat × Block) → Disk
  | [] => d
  | (b, v) :: ups => applyUpdates (Function.update d b v) ups

/-! ## The cache -/

namespace Machine

@[simp] theorem buf_bread (m : Machine) (a b : Nat) : (m.bread a).buf b = m.buf b := by
  by_cases h : b = a
  · subst h
    simp [bread, buf]
  · simp [bread, buf, Function.update_of_ne h]

theorem buf_setBuf (m : Machine) (a b : Nat) (v : Block) :
    (m.setBuf a v).buf b = if b = a then v else m.buf b := by
  by_cases h : b = a
  · subst h
    simp [setBuf, buf]
  · simp [setBuf, buf, h]

/-- Writing a buffer to disk does not change what the cache holds of the
other blocks, and leaves its own block equal to the buffer. -/
theorem buf_bwrite (m : Machine) (a b : Nat) : (m.bwrite a).buf b = m.buf b := by
  by_cases h : b = a
  · subst h
    cases hc : m.cache b <;> simp [bwrite, buf, hc]
  · simp [bwrite, buf, h]

theorem disk_bwrite (m : Machine) (a b : Nat) :
    (m.bwrite a).disk b = if b = a then m.buf a else m.disk b := by
  by_cases h : b = a <;> simp [bwrite, h]

@[simp] theorem bread_disk (m : Machine) (a : Nat) : (m.bread a).disk = m.disk := rfl
@[simp] theorem bread_log (m : Machine) (a : Nat) : (m.bread a).log = m.log := rfl
@[simp] theorem bread_stops (m : Machine) (a : Nat) : (m.bread a).stops = m.stops := rfl
@[simp] theorem setBuf_disk (m : Machine) (a : Nat) (v : Block) :
    (m.setBuf a v).disk = m.disk := rfl
@[simp] theorem setBuf_log (m : Machine) (a : Nat) (v : Block) :
    (m.setBuf a v).log = m.log := rfl
@[simp] theorem setBuf_stops (m : Machine) (a : Nat) (v : Block) :
    (m.setBuf a v).stops = m.stops := rfl
@[simp] theorem memmove_disk (m : Machine) (a b : Nat) : (m.memmove a b).disk = m.disk := rfl
@[simp] theorem memmove_log (m : Machine) (a b : Nat) : (m.memmove a b).log = m.log := rfl
@[simp] theorem memmove_stops (m : Machine) (a b : Nat) :
    (m.memmove a b).stops = m.stops := rfl
@[simp] theorem bwrite_log (m : Machine) (a : Nat) : (m.bwrite a).log = m.log := rfl

/-- The one new stop of a block write is the disk it leaves. -/
theorem bwrite_stops (m : Machine) (a : Nat) :
    (m.bwrite a).stops = m.stops ++ [(m.bwrite a).disk] := rfl

end Machine

/-! ## The copy step

`write_log` and `install_trans` share one loop body: read both blocks, copy
one buffer to the other, write the destination. -/

/-- Read `src` and `dst` through the cache, copy, write `dst`. -/
def copyBlock (m : Machine) (first second dst src : Nat) : Machine :=
  (((m.bread first).bread second).memmove dst src).bwrite dst

theorem copyBlock_log (m : Machine) (x y dst src : Nat) :
    (copyBlock m x y dst src).log = m.log := rfl

theorem copyBlock_buf (m : Machine) (x y dst src b : Nat) :
    (copyBlock m x y dst src).buf b = if b = dst then m.buf src else m.buf b := by
  simp [copyBlock, Machine.buf_bwrite, Machine.memmove, Machine.buf_setBuf]

theorem copyBlock_disk (m : Machine) (x y dst src b : Nat) :
    (copyBlock m x y dst src).disk b = if b = dst then m.buf src else m.disk b := by
  simp [copyBlock, Machine.disk_bwrite, Machine.memmove, Machine.buf_setBuf]

theorem copyBlock_stops (m : Machine) (x y dst src : Nat) :
    (copyBlock m x y dst src).stops = m.stops ++ [(copyBlock m x y dst src).disk] := rfl

/-! ## write_log -/

/-- What the loop of `write_log` does: block `rest[i]` of the cache is copied to
log block `tail + i`, home blocks and the header are left alone, on disk at every stop too. -/
structure WroteLog (m m' : Machine) (tail : Nat) (rest : List Nat) : Prop where
  log   : m'.log = m.log
  buf   : ∀ b, (b ≤ m.log.start + tail ∨ m.log.start + tail + rest.length < b) →
            m'.buf b = m.buf b
  disk  : ∀ b, (b ≤ m.log.start + tail ∨ m.log.start + tail + rest.length < b) →
            m'.disk b = m.disk b
  wrote : ∀ i (h : i < rest.length), m'.disk (m.log.start + tail + i + 1) = m.buf rest[i] ∧
            m'.buf (m.log.start + tail + i + 1) = m.buf rest[i]
  stops : ∀ d ∈ m'.stops, d ∈ m.stops ∨
            ∀ b, (b ≤ m.log.start + tail ∨ m.log.start + tail + rest.length < b) →
              d b = m.disk b

theorem writeLogFrom_spec (m : Machine) (tail : Nat) (rest : List Nat)
    (hHome : ∀ b ∈ rest, b ≤ m.log.start ∨ m.log.start + tail + rest.length < b) :
    WroteLog m (writeLogFrom m tail rest) tail rest := by
  induction rest generalizing m tail with
  | nil =>
    exact ⟨rfl, fun _ _ => rfl, fun _ _ => rfl, fun i h => absurd h (Nat.not_lt_zero i),
      fun d hd => Or.inl hd⟩
  | cons b rest ih =>
    set m₁ := copyBlock m (m.log.start + tail + 1) b (m.log.start + tail + 1) b with hm₁
    have hRun : writeLogFrom m tail (b :: rest) = writeLogFrom m₁ (tail + 1) rest := rfl
    have hb := hHome b (List.mem_cons_self ..)
    rw [List.length_cons] at hb
    have hSpec := ih m₁ (tail + 1) (by
      intro x hx
      have := hHome x (List.mem_cons_of_mem _ hx)
      rw [List.length_cons] at this
      rw [hm₁, copyBlock_log]
      omega)
    rw [hRun]
    obtain ⟨hLog, hBuf, hDisk, hWrote, hStops⟩ := hSpec
    rw [hm₁, copyBlock_log] at hLog hBuf hDisk hWrote hStops
    rw [← hm₁] at hBuf hDisk hWrote hStops
    have hBuf₁ : ∀ x, m₁.buf x = if x = m.log.start + tail + 1 then m.buf b else m.buf x :=
      fun x => copyBlock_buf m _ _ _ _ x
    have hDisk₁ : ∀ x, m₁.disk x = if x = m.log.start + tail + 1 then m.buf b else m.disk x :=
      fun x => copyBlock_disk m _ _ _ _ x
    refine ⟨hLog, ?_, ?_, ?_, ?_⟩
    · intro x hx
      rw [List.length_cons] at hx
      rw [hBuf x (by omega), hBuf₁, if_neg (by omega)]
    · intro x hx
      rw [List.length_cons] at hx
      rw [hDisk x (by omega), hDisk₁, if_neg (by omega)]
    · intro i hi
      cases i with
      | zero =>
        rw [hDisk _ (by omega), hBuf _ (by omega), hDisk₁, hBuf₁, if_pos (by omega), if_pos (by omega)]
        exact ⟨rfl, rfl⟩
      | succ i =>
        have hi' : i < rest.length := by simpa using hi
        have hx := hHome rest[i] (List.mem_cons_of_mem _ (List.getElem_mem hi'))
        rw [List.length_cons] at hx
        have hIdx : m.log.start + tail + (i + 1) + 1 = m.log.start + (tail + 1) + i + 1 := by omega
        have hSrc : m₁.buf rest[i] = m.buf rest[i] := by
          rw [hBuf₁, if_neg (by omega)]
        rw [hIdx, List.getElem_cons_succ, ← hSrc]
        exact hWrote i hi'
    · intro d hd
      rcases hStops d hd with hOld | hNew
      · rw [hm₁, copyBlock_stops, ← hm₁, List.mem_append, List.mem_singleton] at hOld
        rcases hOld with hOld | rfl
        · exact Or.inl hOld
        · refine Or.inr fun x hx => ?_
          rw [List.length_cons] at hx
          rw [hDisk₁, if_neg (by omega)]
      · refine Or.inr fun x hx => ?_
        rw [List.length_cons] at hx
        rw [hNew x (by omega), hDisk₁, if_neg (by omega)]

/-! ## install_trans -/

/-- What the loop of `install_trans` does when log block `tail + i` holds the
new contents of `rest[i]`: the blocks of `rest` get their new contents, all
others keep theirs at every stop. -/
structure Installed (new : Disk) (m m' : Machine) (rest : List Nat) : Prop where
  log   : m'.log = m.log
  disk  : ∀ b, b ∉ rest → m'.disk b = m.disk b
  home  : ∀ b ∈ rest, m'.disk b = new b
  stops : ∀ d ∈ m'.stops, d ∈ m.stops ∨ ∀ b, b ∉ rest → d b = m.disk b

theorem installFrom_spec (new : Disk) (m : Machine) (tail : Nat) (rest : List Nat)
    (hHome : ∀ b ∈ rest, b ≤ m.log.start ∨ m.log.start + tail + rest.length < b)
    (hNew : ∀ i (h : i < rest.length), m.buf (m.log.start + tail + i + 1) = new rest[i]) :
    Installed new m (installFrom m tail rest) rest := by
  induction rest generalizing m tail with
  | nil => exact ⟨rfl, fun _ _ => rfl, fun _ h => by simp at h, fun d hd => Or.inl hd⟩
  | cons b rest ih =>
    set m₁ := copyBlock m (m.log.start + tail + 1) b b (m.log.start + tail + 1) with hm₁
    have hRun : installFrom m tail (b :: rest) = installFrom m₁ (tail + 1) rest := rfl
    have hb := hHome b (List.mem_cons_self ..)
    rw [List.length_cons] at hb
    have hNew₀ : m.buf (m.log.start + tail + 1) = new b := hNew 0 (by simp)
    have hBuf₁ : ∀ x, m₁.buf x = if x = b then new b else m.buf x := by
      intro x
      rw [hm₁, copyBlock_buf, hNew₀]
    have hDisk₁ : ∀ x, m₁.disk x = if x = b then new b else m.disk x := by
      intro x
      rw [hm₁, copyBlock_disk, hNew₀]
    have hLog₁ : m₁.log = m.log := rfl
    obtain ⟨hLog, hDisk, hDone, hStops⟩ := ih m₁ (tail + 1)
      (by
        intro x hx
        have := hHome x (List.mem_cons_of_mem _ hx)
        rw [List.length_cons] at this
        rw [hLog₁]
        omega)
      (by
        intro i hi
        -- the log blocks still to be copied are not home blocks
        have := hNew (i + 1) (by simpa using hi)
        rw [List.getElem_cons_succ] at this
        rw [hLog₁, hBuf₁, if_neg (by omega), ← this]
        congr 1
        omega)
    rw [hRun]
    refine ⟨hLog, ?_, ?_, ?_⟩
    · intro x hx
      rw [List.mem_cons, not_or] at hx
      rw [hDisk x hx.2, hDisk₁, if_neg hx.1]
    · intro x hx
      by_cases hxr : x ∈ rest
      · exact hDone x hxr
      · have hxb : x = b := by simpa [hxr] using hx
        rw [hDisk x hxr, hDisk₁, if_pos hxb, hxb]
    · intro d hd
      rcases hStops d hd with hOld | hKeep
      · rw [hm₁, copyBlock_stops, ← hm₁, List.mem_append, List.mem_singleton] at hOld
        rcases hOld with hOld | rfl
        · exact Or.inl hOld
        · refine Or.inr fun x hx => ?_
          rw [List.mem_cons, not_or] at hx
          rw [hDisk₁, if_neg hx.1]
      · refine Or.inr fun x hx => ?_
        rw [List.mem_cons, not_or] at hx
        rw [hKeep x hx.2, hDisk₁, if_neg hx.1]

/-! ## The header -/

theorem headN_fillHead {hb : Block} {lh : List Nat} (h : lh.length ≤ LOGSIZE) :
    headN (fillHead hb lh) = lh.length := by
  have hL : LOGSIZE = 30 := rfl
  have hN : field (fillHead hb lh) 0 4 = lh.length := by
    rw [fillHead, field_setFields_below (by omega), field_setField_same (by decide)]
    exact Nat.mod_eq_of_lt (by omega)
  rw [headN, hN, if_pos (by omega)]

theorem headN_fillHead_nil (hb : Block) : headN (fillHead hb []) = 0 :=
  headN_fillHead (Nat.zero_le _)

theorem headBlocks_fillHead {hb : Block} {lh : List Nat} (h : lh.length ≤ LOGSIZE)
    (h32 : ∀ b ∈ lh, b < 2 ^ 32) : headBlocks (fillHead hb lh) = lh := by
  have hL : LOGSIZE = 30 := rfl
  have hB : BSIZE = 1024 := rfl
  rw [headBlocks, headN_fillHead h, fillHead]
  exact fields_setFields (by omega) (fun b hb => by simpa using h32 b hb)

theorem headBlocks_of_headN_zero {hb : Block} (h : headN hb = 0) : headBlocks hb = [] := by
  rw [headBlocks, h]
  rfl

/-- `write_head` changes the header block only, and the disk it leaves is its
only stop. -/
theorem writeHead_disk (m : Machine) (b : Nat) :
    (writeHead m).disk b =
      if b = m.log.start then fillHead (m.buf m.log.start) m.log.lh else m.disk b := by
  simp [writeHead, Machine.disk_bwrite, Machine.buf_setBuf]

theorem writeHead_buf (m : Machine) {b : Nat} (h : b ≠ m.log.start) :
    (writeHead m).buf b = m.buf b := by
  simp [writeHead, Machine.buf_bwrite, Machine.buf_setBuf, h]

theorem writeHead_stops (m : Machine) :
    (writeHead m).stops = m.stops ++ [(writeHead m).disk] := rfl

/-! ## The disks a crash can leave -/

/-- The disks between the block writes of a transaction that updates the
blocks `lh` from `old` to `new`. -/
inductive CrashState (start size : Nat) (old new : Disk) (lh : List Nat) (d : Disk) : Prop where
  | before (hHead : headN (d start) = 0)
      (hHome : ∀ b, b < start ∨ start + size ≤ b → d b = old b)
  | logged (hHead : headBlocks (d start) = lh)
      (hLog : ∀ i (h : i < lh.length), d (start + i + 1) = new lh[i])
      (hHome : ∀ b, b < start ∨ start + size ≤ b → b ∉ lh → d b = old b)
  | after (hHead : headN (d start) = 0)
      (hHome : ∀ b, b < start ∨ start + size ≤ b → d b = new b)

section Transaction

variable {start size : Nat} {old new : Disk} {lh : List Nat}
  (hHome : ∀ b ∈ lh, b < start ∨ start + size ≤ b)
  (hFit : lh.length < size)
  (hSame : ∀ b, b ∉ lh → new b = old b)

include hHome hFit hSame

/-- Installing a logged transaction passes through logged disks only; clearing the
header then ends it with the new home blocks. -/
theorem install_clear {m : Machine} (hStart : m.log.start = start) (hLh : m.log.lh = lh)
    (hHead : headBlocks (m.disk start) = lh)
    (hBuf : ∀ i (h : i < lh.length), m.buf (start + i + 1) = new lh[i])
    (hLog : ∀ i (h : i < lh.length), m.disk (start + i + 1) = new lh[i])
    (hOld : ∀ b, b < start ∨ start + size ≤ b → b ∉ lh → m.disk b = old b)
    (hStops : ∀ d ∈ m.stops, CrashState start size old new lh d) :
    (∀ d ∈ (writeHead (clearHead (installTrans m))).stops, CrashState start size old new lh d) ∧
      headN ((writeHead (clearHead (installTrans m))).disk start) = 0 ∧
      ∀ b, b < start ∨ start + size ≤ b →
        (writeHead (clearHead (installTrans m))).disk b = new b := by
  have hInst : Installed new m (installTrans m) lh := by
    rw [installTrans, hLh]
    apply installFrom_spec new m 0 lh
    · intro b hb
      have := hHome b hb
      omega
    · intro i hi
      rw [hStart, Nat.add_zero]
      exact hBuf i hi
  -- the header and the log blocks are not home blocks, so installation keeps them
  have hKeep : ∀ d : Disk, (∀ b, b ∉ lh → d b = m.disk b) →
      CrashState start size old new lh d := by
    intro d hd
    have hNot : ∀ i, i < size → start + i ∉ lh := fun i hi hs => by
      have := hHome _ hs
      omega
    refine .logged ?_ ?_ ?_
    · rw [hd start (hNot 0 (by omega))]
      exact hHead
    · intro i hi
      rw [Nat.add_assoc, hd _ (hNot (i + 1) (by omega)), ← Nat.add_assoc]
      exact hLog i hi
    · intro b hb hbl
      rw [hd b hbl]
      exact hOld b hb hbl
  have hStart' : (clearHead (installTrans m)).log.start = start := by
    rw [show (clearHead (installTrans m)).log.start = (installTrans m).log.start from rfl,
      hInst.log, hStart]
  have hFinalHead : headN ((writeHead (clearHead (installTrans m))).disk start) = 0 := by
    rw [writeHead_disk, hStart', if_pos rfl]
    exact headN_fillHead_nil _
  have hFinalHome : ∀ b, b < start ∨ start + size ≤ b →
      (writeHead (clearHead (installTrans m))).disk b = new b := by
    intro b hb
    rw [writeHead_disk, hStart', if_neg (by omega)]
    by_cases hbl : b ∈ lh
    · exact hInst.home b hbl
    · rw [hSame b hbl, ← hOld b hb hbl]
      exact hInst.disk b hbl
  refine ⟨?_, hFinalHead, hFinalHome⟩
  intro d hd
  rw [writeHead_stops, List.mem_append, List.mem_singleton] at hd
  rcases hd with hd | rfl
  · rcases hInst.stops d hd with hd | hd
    · exact hStops d hd
    · exact hKeep d hd
  · exact .after hFinalHead hFinalHome

/-- Every stop of a recovery is again a crash state of the same transaction, and the
recovery, when it completes, leaves a clear header and all old or all new blocks. -/
theorem recover_step {d : Disk} (h : CrashState start size old new lh d) :
    (∀ d₁ ∈ stopsOf recoverFromLog (boot start size d), CrashState start size old new lh d₁) ∧
      headN ((recoverFromLog (boot start size d)).disk start) = 0 ∧
      ((∀ b, b < start ∨ start + size ≤ b →
          (recoverFromLog (boot start size d)).disk b = old b) ∨
        (∀ b, b < start ∨ start + size ≤ b →
          (recoverFromLog (boot start size d)).disk b = new b)) := by
  -- with a clear header, recovery only rewrites the header
  have hClear : headN (d start) = 0 →
      (stopsOf recoverFromLog (boot start size d) = [d, (recoverFromLog (boot start size d)).disk]) ∧
      headN ((recoverFromLog (boot start size d)).disk start) = 0 ∧
      ∀ b, b < start ∨ start + size ≤ b → (recoverFromLog (boot start size d)).disk b = d b := by
    intro hZero
    have hRead : (readHead (boot start size d)).log.lh = [] := by
      show headBlocks (((boot start size d).bread start).buf start) = []
      rw [Machine.buf_bread]
      exact headBlocks_of_headN_zero hZero
    have hInst : installTrans (readHead (boot start size d)) = readHead (boot start size d) := by
      rw [installTrans, hRead]
      rfl
    have hRun : recoverFromLog (boot start size d) =
        writeHead (clearHead (readHead (boot start size d))) := by
      rw [recoverFromLog, hInst]
    refine ⟨?_, ?_, ?_⟩
    · show (recoverFromLog (boot start size d)).stops = _
      rw [hRun, writeHead_stops]
      rfl
    · rw [hRun, writeHead_disk, if_pos (by rfl)]
      exact headN_fillHead_nil _
    · intro b hb
      rw [hRun, writeHead_disk, if_neg (by
        show b ≠ start
        omega)]
      rfl
  rcases h with ⟨hHead, hOldHome⟩ | ⟨hHead, hLog, hOldHome⟩ | ⟨hHead, hNewHome⟩
  · obtain ⟨hStops, hN, hSameHome⟩ := hClear hHead
    have hFinal : ∀ b, b < start ∨ start + size ≤ b →
        (recoverFromLog (boot start size d)).disk b = old b := fun b hb => by
      rw [hSameHome b hb]
      exact hOldHome b hb
    refine ⟨?_, hN, Or.inl hFinal⟩
    rw [hStops]
    intro d₁ hd₁
    simp only [List.mem_cons, List.not_mem_nil, or_false] at hd₁
    rcases hd₁ with rfl | rfl
    · exact .before hHead hOldHome
    · exact .before hN hFinal
  · -- the transaction had committed: recovery replays it from the log
    have hRead : (readHead (boot start size d)).log.lh = lh := by
      show headBlocks (((boot start size d).bread start).buf start) = lh
      rw [Machine.buf_bread]
      exact hHead
    have hBuf : ∀ b, (readHead (boot start size d)).buf b = d b := by
      intro b
      show ((boot start size d).bread start).buf b = d b
      rw [Machine.buf_bread]
      rfl
    obtain ⟨hStops, hN, hFinal⟩ := install_clear hHome hFit hSame
      (m := readHead (boot start size d)) rfl hRead hHead
      (fun i hi => by rw [hBuf]; exact hLog i hi) hLog hOldHome
      (fun d₁ hd₁ => by
        have : d₁ = d := by simpa [readHead, boot] using hd₁
        rw [this]
        exact .logged hHead hLog hOldHome)
    exact ⟨hStops, hN, Or.inr hFinal⟩
  · obtain ⟨hStops, hN, hSameHome⟩ := hClear hHead
    have hFinal : ∀ b, b < start ∨ start + size ≤ b →
        (recoverFromLog (boot start size d)).disk b = new b := fun b hb => by
      rw [hSameHome b hb]
      exact hNewHome b hb
    refine ⟨?_, hN, Or.inr hFinal⟩
    rw [hStops]
    intro d₁ hd₁
    simp only [List.mem_cons, List.not_mem_nil, or_false] at hd₁
    rcases hd₁ with rfl | rfl
    · exact .after hHead hNewHome
    · exact .after hN hFinal

/-- Any number of interrupted recoveries and a last complete one. -/
theorem recovered_of_crashState {d d' : Disk} (h : CrashState start size old new lh d)
    (hRec : Recovered start size d d') :
    headN (d' start) = 0 ∧
      ((∀ b, b < start ∨ start + size ≤ b → d' b = old b) ∨
        (∀ b, b < start ∨ start + size ≤ b → d' b = new b)) := by
  induction hRec with
  | done d => exact (recover_step hHome hFit hSame h).2
  | stopped hStop _ ih => exact ih ((recover_step hHome hFit hSame h).1 _ hStop)

/-- Every stop of `commit` is a crash state of its transaction. -/
theorem commit_stops {m : Machine} (hStart : m.log.start = start) (hLh : m.log.lh = lh)
    (hLen : lh.length ≤ LOGSIZE) (h32 : ∀ b ∈ lh, b < 2 ^ 32)
    (hDisk : m.disk = old) (hHead : headN (old start) = 0)
    (hNew : ∀ b ∈ lh, m.buf b = new b) :
    ∀ d ∈ stopsOf commit m, CrashState start size old new lh d := by
  have hFirst : CrashState start size old new lh m.disk :=
    .before (by rw [hDisk]; exact hHead) (fun b _ => by rw [hDisk])
  set m₀ : Machine := { m with stops := [m.disk] } with hm₀
  show ∀ d ∈ (commit m₀).stops, _
  by_cases hPos : 0 < lh.length
  · have hRun : commit m₀ =
        writeHead (clearHead (installTrans (writeHead (writeLog m₀)))) := by
      rw [commit, if_pos (by rw [hm₀]; simpa [hLh] using hPos)]
    -- the log is written: header and home blocks are as before at every stop
    have hWrote : WroteLog m₀ (writeLog m₀) 0 lh := by
      rw [writeLog, show m₀.log.lh = lh from hLh]
      apply writeLogFrom_spec
      intro b hb
      have := hHome b hb
      rw [show m₀.log.start = start from hStart]
      omega
    obtain ⟨hLog, hBuf, hDiskW, hCopied, hStopsW⟩ := hWrote
    rw [show m₀.log.start = start from hStart] at hBuf hDiskW hCopied hStopsW
    simp only [Nat.add_zero] at hBuf hDiskW hCopied hStopsW
    have hLogStart : (writeLog m₀).log.start = start := by rw [hLog]; exact hStart
    have hLogLh : (writeLog m₀).log.lh = lh := by rw [hLog]; exact hLh
    have hSrc : ∀ i (h : i < lh.length), m₀.buf lh[i] = new lh[i] := fun i hi =>
      hNew _ (List.getElem_mem hi)
    -- the header is written: the transaction is committed
    have hHeadDisk : (writeHead (writeLog m₀)).disk start =
        fillHead ((writeLog m₀).buf start) lh := by
      rw [writeHead_disk, hLogStart, if_pos rfl, hLogLh]
    have hOther : ∀ b, b ≠ start →
        (writeHead (writeLog m₀)).disk b = (writeLog m₀).disk b := by
      intro b hb
      rw [writeHead_disk, hLogStart, if_neg hb]
    have hHeadC : headBlocks ((writeHead (writeLog m₀)).disk start) = lh := by
      rw [hHeadDisk]
      exact headBlocks_fillHead hLen h32
    have hLogC : ∀ i (h : i < lh.length),
        (writeHead (writeLog m₀)).disk (start + i + 1) = new lh[i] := by
      intro i hi
      rw [hOther _ (by omega), ← hSrc i hi, ← (hCopied i hi).1]
    have hBufC : ∀ i (h : i < lh.length),
        (writeHead (writeLog m₀)).buf (start + i + 1) = new lh[i] := by
      intro i hi
      rw [writeHead_buf _ (by rw [hLogStart]; omega), ← hSrc i hi, ← (hCopied i hi).2]
    have hHomeC : ∀ b, b < start ∨ start + size ≤ b → b ∉ lh →
        (writeHead (writeLog m₀)).disk b = old b := by
      intro b hb _
      rw [hOther b (by omega), hDiskW b (by omega)]
      exact congrFun hDisk b
    rw [hRun]
    refine (install_clear hHome hFit hSame (by exact hLogStart) (by exact hLogLh) hHeadC hBufC hLogC
      hHomeC ?_).1
    intro d hd
    rw [writeHead_stops, List.mem_append, List.mem_singleton] at hd
    rcases hd with hd | rfl
    · rcases hStopsW d hd with hd | hd
      · have : d = m.disk := by simpa [hm₀] using hd
        rw [this]
        exact hFirst
      · refine .before ?_ ?_
        · rw [hd start (by omega)]
          exact (congrArg (fun x => headN (x start)) hDisk).trans hHead
        · intro b hb
          rw [hd b (by omega)]
          exact congrFun hDisk b
    · exact .logged hHeadC hLogC hHomeC
  · have hRun : commit m₀ = m₀ := by
      rw [commit, if_neg (by rw [hm₀]; simpa [hLh] using hPos)]
    rw [hRun]
    intro d hd
    have : d = m.disk := by simpa [hm₀] using hd
    rw [this]
    exact hFirst

end Transaction

/-! ## The transaction in memory -/

/-- What a run of `log_write`s leaves behind: the header lists blocks that fit the log and
whose cached contents are the updated ones; nothing reached the disk. -/
structure Recorded (m₀ m : Machine) (ups : List (Nat × Block)) (old new : Disk) : Prop where
  start  : m.log.start = m₀.log.start
  size   : m.log.size = m₀.log.size
  disk   : m.disk = m₀.disk
  mem    : ∀ b ∈ m.log.lh, b ∈ m₀.log.lh ∨ b ∈ ups.map Prod.fst
  len    : m.log.lh.length ≤ m₀.log.lh.length ∨
             (m.log.lh.length ≤ LOGSIZE ∧ m.log.lh.length ≤ m.log.size - 1)
  cached : (∀ b ∈ m₀.log.lh, m₀.buf b = old b) → ∀ b ∈ m.log.lh, m.buf b = new b
  same   : ∀ b, b ∉ m.log.lh → new b = old b
  mono   : ∀ b ∈ m₀.log.lh, b ∈ m.log.lh

theorem updates_recorded {m₀ m : Machine} {ups : List (Nat × Block)} (old : Disk)
    (h : updates m₀ ups = .ok m) : Recorded m₀ m ups old (applyUpdates old ups) := by
  induction ups generalizing m₀ old with
  | nil =>
    cases h
    exact ⟨rfl, rfl, rfl, fun b hb => Or.inl hb, Or.inl (Nat.le_refl _), fun hC => hC,
      fun _ _ => rfl, fun _ hb => hb⟩
  | cons u ups ih =>
    obtain ⟨b, v⟩ := u
    -- one update: the buffer holds `v` and `b` is in the header
    obtain ⟨m₁, h₁, hRest⟩ : ∃ m₁, update m₀ b v = .ok m₁ ∧ updates m₁ ups = .ok m := by
      rw [updates] at h
      cases h₁ : update m₀ b v with
      | error e => rw [h₁] at h; cases h
      | ok m₁ => rw [h₁] at h; exact ⟨m₁, rfl, h⟩
    obtain ⟨l, pin, hWrite, hm₁⟩ : ∃ l pin, m₀.log.logWrite b = .ok (l, pin) ∧
        m₁ = { (m₀.bread b).setBuf b v with log := l } := by
      rw [update] at h₁
      cases hW : m₀.log.logWrite b with
      | error e => simp [hW, bind, Except.bind] at h₁
      | ok p =>
        obtain ⟨l, pin⟩ := p
        simp [hW, bind, Except.bind, pure, Except.pure] at h₁
        exact ⟨l, pin, rfl, h₁.symm⟩
    obtain ⟨hL, hS, -, -, hl⟩ := Log.logWrite_ok hWrite
    have hLh : m₁.log.lh = if b ∈ m₀.log.lh then m₀.log.lh else m₀.log.lh ++ [b] := by
      rw [hm₁, hl]
    have hBuf : ∀ x, m₁.buf x = if x = b then v else m₀.buf x := by
      intro x
      rw [hm₁]
      show ((m₀.bread b).setBuf b v).buf x = _
      rw [Machine.buf_setBuf, Machine.buf_bread]
    have hb : b ∈ m₁.log.lh := by
      rw [hLh]
      split
      · assumption
      · simp
    obtain ⟨iStart, iSize, iDisk, iMem, iLen, iCached, iSame, iMono⟩ :=
      ih (Function.update old b v) hRest
    refine ⟨?_, ?_, ?_, ?_, ?_, ?_, ?_, ?_⟩
    · rw [iStart, hm₁, hl]
    · rw [iSize, hm₁, hl]
    · rw [iDisk, hm₁]
      rfl
    · intro x hx
      rcases iMem x hx with hx | hx
      · rw [hLh] at hx
        split at hx
        · exact Or.inl hx
        · rcases List.mem_append.mp hx with hx | hx
          · exact Or.inl hx
          · exact Or.inr (by simp [List.mem_singleton.mp hx])
      · exact Or.inr (List.mem_cons_of_mem _ hx)
    · rcases iLen with hLen | hLen
      · have hSize : m.log.size = m₀.log.size := by rw [iSize, hm₁, hl]
        have hLen₁ : m₁.log.lh.length ≤ m₀.log.lh.length + 1 := by
          rw [hLh]
          split
          · omega
          · simp
        exact Or.inr ⟨by omega, by omega⟩
      · exact Or.inr hLen
    · intro hC
      apply iCached
      intro x hx
      rw [hBuf]
      by_cases hxb : x = b
      · rw [if_pos hxb, hxb, Function.update_self]
      · rw [if_neg hxb, Function.update_of_ne hxb]
        apply hC
        rw [hLh] at hx
        split at hx
        · exact hx
        · simpa [hxb] using hx
    · intro x hx
      have hxb : x ≠ b := fun hxb => hx (iMono x (hxb ▸ hb))
      show applyUpdates (Function.update old b v) ups x = old x
      rw [iSame x hx, Function.update_of_ne hxb]
    · intro x hx
      apply iMono
      rw [hLh]
      split
      · exact hx
      · exact List.mem_append_left _ hx

/--
**Crash atomicity of the redo log.** From a disk with a clear header, record any
updates of home blocks with `log_write`, stop `commit` at any point between two
block writes, stop the recoveries that follow at any points, let one complete:
the header is clear and the home blocks are all as before the transaction or all as
committed.
-/
theorem commit_crash_atomic {m₀ m : Machine} {ups : List (Nat × Block)} {d d' : Disk}
    (hSize : 1 ≤ m₀.log.size)
    (hNone : m₀.log.lh = [])
    (hHead : headN (m₀.disk m₀.log.start) = 0)
    (hUps : ∀ u ∈ ups, m₀.log.Home u.1 ∧ u.1 < 2 ^ 32)
    (hRec : updates m₀ ups = .ok m)
    (hStop : d ∈ stopsOf commit m)
    (hDone : Recovered m₀.log.start m₀.log.size d d') :
    headN (d' m₀.log.start) = 0 ∧
      ((∀ b, m₀.log.Home b → d' b = m₀.disk b) ∨
        (∀ b, m₀.log.Home b → d' b = applyUpdates m₀.disk ups b)) := by
  have hR := updates_recorded m₀.disk hRec
  have hMem : ∀ b ∈ m.log.lh, m₀.log.Home b ∧ b < 2 ^ 32 := by
    intro b hb
    rcases hR.mem b hb with hb | hb
    · rw [hNone] at hb
      simp at hb
    · obtain ⟨u, hu, rfl⟩ := List.mem_map.mp hb
      exact hUps u hu
  have hLen : m.log.lh.length ≤ LOGSIZE ∧ m.log.lh.length < m₀.log.size := by
    have := hR.size
    rcases hR.len with h | h
    · rw [hNone, List.length_nil] at h
      omega
    · omega
  have hCrash : CrashState m₀.log.start m₀.log.size m₀.disk (applyUpdates m₀.disk ups) m.log.lh d :=
    commit_stops (fun b hb => (hMem b hb).1) hLen.2 hR.same hR.start rfl hLen.1
      (fun b hb => (hMem b hb).2) hR.disk hHead
      (hR.cached (fun b hb => by rw [hNone] at hb; simp at hb)) d hStop
  exact recovered_of_crashState (fun b hb => (hMem b hb).1) hLen.2 hR.same hCrash hDone

/-- An all-zero disk with the log at block 2, inside a transaction. -/
def sampleMachine : Machine :=
  let m := boot 2 LOGSIZE (fun _ => zeroBlock)
  { m with log := { m.log with outstanding := 1 } }

/-- `sampleMachine` after block 40 was filled with sevens and logged. -/
def sampleUpdated : Machine :=
  let m := (sampleMachine.bread 40).setBuf 40 (fun _ => 7)
  { m with log := { m.log with lh := [40] } }

/-- The crash right after the header was written, and one complete recovery. -/
theorem commit_crash_atomic_sample :
    let d := (stopsOf commit sampleUpdated)[2]!
    let d' := (recoverFromLog (boot 2 LOGSIZE d)).disk
    headN (d' 2) = 0 ∧
      ((∀ b, sampleMachine.log.Home b → d' b = sampleMachine.disk b) ∨
        (∀ b, sampleMachine.log.Home b →
          d' b = applyUpdates sampleMachine.disk [(40, fun _ => 7)] b)) := by
  intro d d'
  refine @commit_crash_atomic sampleMachine sampleUpdated _ d d' (by decide) rfl rfl ?_ rfl ?_
    (Recovered.done d)
  · intro u hu
    rw [List.mem_singleton] at hu
    subst hu
    exact ⟨Or.inr (by decide), by decide⟩
  · exact List.getElem_mem (l := stopsOf commit sampleUpdated) (n := 2) (by decide)

end Xv6
