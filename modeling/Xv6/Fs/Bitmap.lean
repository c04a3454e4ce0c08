import Xv6.Fs.Blocks
import Xv6.Lib.Lts

/-!
# xv6 — the free map as a set

`balloc` and `bfree` alone, for a file system of any size and any contents of the free map that the allocator cannot destroy:
the blocks of the map are themselves marked in use. `mkfs` leaves it so, and nobody frees them. If one of them is not marked,
`balloc` may return it, zeroed, and with it goes a part of the map.

* `bitmap_set`: `balloc` takes the least free block, `bfree` gives a block back, and no block is given out twice.
* `bitmap_lost`: what happens when the map is not marked in use.
-/

namespace Xv6.Fs

open ByteBuf Hoare

variable {c c' : Core} {b : Nat}

/-- Block `y` is one of the blocks of the free map. -/
def Core.InMap (c : Core) (y : Nat) : Prop := ∃ x < c.sb.size, c.sb.bblock x = y

instance (c : Core) (y : Nat) : Decidable (c.InMap y) := inferInstanceAs (Decidable (∃ x < c.sb.size, c.sb.bblock x = y))

/-- `int` has room for the numbers of `balloc`, and the free map is marked in use. -/
structure MapOk (c : Core) : Prop where
  small : c.sb.size + BPB < 2 ^ 31
  own   : ∀ y < c.sb.size, c.InMap y → marked c.sb c.buf y = true

/-- From `c` to `c'`, `balloc` has returned `b`. -/
structure Allocated (b : Nat) (c c' : Core) : Prop where
  free  : b < c.sb.size ∧ marked c.sb c.buf b = false
  least : ∀ x < b, marked c.sb c.buf x = true
  int   : b + BPB < 2 ^ 31
  map   : ¬c.InMap b
  sb    : c'.sb = c.sb
  bits  : ∀ x, c.sb.bblock x ≠ b → marked c.sb c'.buf x = (decide (x = b) || marked c.sb c.buf x)
  zero  : c'.buf b = zeroBlock
  other : ∀ y, y ≠ b → y ≠ c.sb.bblock b → c'.buf y = c.buf y

/-- From `c` to `c'`, `bfree` has freed `b`. -/
structure Unmarked (b : Nat) (c c' : Core) : Prop where
  sb    : c'.sb = c.sb
  bits  : ∀ x, marked c.sb c'.buf x = (decide (x ≠ b) && marked c.sb c.buf x)
  other : ∀ y, y ≠ c.sb.bblock b → c'.buf y = c.buf y

theorem allocated_take (h : MapOk c) (hFree : b ∈ c.freeBlocks) (hLeast : ∀ x < b, marked c.sb c.buf x = true) :
    Allocated b c (c.take b) := by
  obtain ⟨hb, hClear⟩ := mem_freeBlocks.mp hFree
  have hSmall := h.small
  refine ⟨⟨hb, hClear⟩, hLeast, by omega, fun hMap => ?_, rfl, fun x hx => marked_take hx, ?_, fun y hy hy' => ?_⟩
  · rw [h.own b hb hMap] at hClear
    exact nomatch hClear
  · rw [Core.take, Core.put_buf, upd_self]
  · rw [Core.take, Core.put_buf, upd_of_ne hy, Core.put_buf, upd_of_ne hy']

theorem unmarked_unmark (c : Core) (b : Nat) : Unmarked b c (c.unmark b) where
  sb := rfl
  bits x := marked_unmark b x
  other y hy := by rw [Core.unmark, Core.put_buf, upd_of_ne hy]

/-- Both outcomes of `balloc`. -/
theorem balloc_eq (c : Core) : (c.freeBlocks = ∅ ∧ balloc c = .error .ballocOutOfBlocks) ∨
    ∃ b ∈ c.freeBlocks, (∀ x < b, marked c.sb c.buf x = true) ∧ balloc c = .ok (b, c.take b) := by
  have hWp := balloc_spec (c := c) (E := fun e => c.freeBlocks = ∅ ∧ e = .ballocOutOfBlocks) fun hNone => ⟨hNone, rfl⟩
  cases hRun : balloc c with
  | ok r =>
    obtain ⟨b, c'⟩ := r
    obtain ⟨hFree, hLeast, rfl⟩ := hWp.ok hRun
    exact .inr ⟨b, hFree, hLeast, rfl⟩
  | error e =>
    obtain ⟨hNone, rfl⟩ := hWp.error hRun
    exact .inl ⟨hNone, rfl⟩

/-- Both outcomes of `bfree`. -/
theorem bfree_eq (c : Core) (b : Nat) :
    bfree b c = if marked c.sb c.buf b = true then .ok ((), c.unmark b) else .error .freeingFreeBlock := by
  split
  · rename_i hMarked
    obtain ⟨_, c', hRun, rfl⟩ := (bfree_spec (E := fun _ => False) hMarked).total
    exact hRun
  · rename_i hClear
    have hWp : wp (fun e => e = .freeingFreeBlock) (bfree b) (fun _ _ => False) c := by
      rw [bfree, wp_bind, wp_get, wp_bind, wp_bread, wp_ite]
      exact ⟨fun hBad => absurd hBad hClear, fun _ => wp_throw.mpr rfl⟩
    cases hRun : bfree b c with
    | ok r => exact (hWp.ok hRun).elim
    | error e => rw [hWp.error hRun]

/-! ## A block just taken is given back -/

theorem block_ext {v w : Block} (h : ∀ i < BPB, bit v i = bit w i) : v = w := by
  refine buf_ext fun i hi => UInt8.toBitVec_inj.mp (BitVec.eq_of_getLsbD_eq fun j hj => ?_)
  have hB : BPB = BSIZE * 8 := rfl
  have hBit := h (i * 8 + j) (by omega)
  rwa [bit_eq_getLsbD, bit_eq_getLsbD, show (i * 8 + j) / 8 = i by omega, show (i * 8 + j) % 8 = j by omega] at hBit

theorem clearBit_setBit {v : Block} {i : Nat} (hi : i < BPB) (h : bit v i = false) : clearBit (setBit v i) i = v := by
  refine block_ext fun j _ => ?_
  rw [bit_clearBit hi, bit_setBit hi]
  by_cases hj : j = i
  · rw [hj, h]
    simp
  · simp [hj]

theorem take_unmark (hClear : marked c.sb c.buf b = false) (hne : c.sb.bblock b ≠ b) {y : Nat} (hy : y ≠ b) :
    ((c.take b).unmark b).buf y = c.buf y := by
  have hBuf : (c.take b).buf (c.sb.bblock b) = setBit (c.buf (c.sb.bblock b)) (b % BPB) := by
    rw [Core.take, Core.put_buf, upd_of_ne hne, Core.put_buf, upd_self]
  have hSb : (c.take b).sb = c.sb := rfl
  rw [Core.unmark, Core.put_buf, hSb]
  by_cases hMap : y = c.sb.bblock b
  · rw [hMap, upd_self, hBuf]
    exact clearBit_setBit (Nat.mod_lt _ (by decide)) hClear
  · rw [upd_of_ne hMap, Core.take, Core.put_buf, upd_of_ne hy, Core.put_buf, upd_of_ne hMap]

/-! ## Any sequence of calls -/

/-- The calls, and what else the kernel does between them: it writes blocks. -/
inductive BlockOp where
  | balloc (b : Nat)
  | bfree (b : Nat)
  | write (y : Nat) (v : Block)

/-- From `c₀` on: `balloc` returns a block, a block is freed, or written. Nobody but the two functions writes the free map, and
nobody frees a block of it. -/
def blockLts (c₀ : Core) : Lts Core BlockOp Panic where
  init c := c = c₀
  step c
    | .balloc b =>
      match balloc c with
      | .ok (r, c') => if r = b then some (.ok c') else none
      | .error e => some (.error e)
    | .bfree b => if c.InMap b then none else some ((bfree b c).map Prod.snd)
    | .write y v => if c.InMap y then none else some (.ok (c.put y v))

/-- What a step does to the set of marked blocks. -/
inductive BlockStep (c c' : Core) : BlockOp → Prop where
  | balloc {b : Nat} (h : Allocated b c c') : BlockStep c c' (.balloc b)
  | bfree {b : Nat} (hMap : ¬c.InMap b) (h : Unmarked b c c') : BlockStep c c' (.bfree b)
  | write {y : Nat} {v : Block} (hSb : c'.sb = c.sb) (h : ∀ x < c.sb.size, marked c.sb c'.buf x = marked c.sb c.buf x) :
    BlockStep c c' (.write y v)

theorem blockStep_of_step {c₀ : Core} {a : BlockOp} (h : MapOk c) (hStep : (blockLts c₀).step c a = some (.ok c')) :
    BlockStep c c' a := by
  cases a with
  | balloc b =>
    dsimp only [blockLts] at hStep
    rcases balloc_eq c with ⟨-, hRun⟩ | ⟨r, hFree, hLeast, hRun⟩
    · rw [hRun] at hStep
      exact nomatch hStep
    · rw [hRun] at hStep
      dsimp only at hStep
      split at hStep
      · rename_i hr
        obtain rfl := Except.ok.inj (Option.some.inj hStep)
        exact .balloc (hr ▸ allocated_take h hFree hLeast)
      · exact nomatch hStep
  | bfree b =>
    dsimp only [blockLts] at hStep
    split at hStep
    · exact nomatch hStep
    · rename_i hMap
      rw [bfree_eq] at hStep
      split at hStep
      · obtain rfl := Except.ok.inj (Option.some.inj hStep)
        exact .bfree hMap (unmarked_unmark c b)
      · exact nomatch hStep
  | write y v =>
    dsimp only [blockLts] at hStep
    split at hStep
    · exact nomatch hStep
    · rename_i hMap
      obtain rfl := Except.ok.inj (Option.some.inj hStep)
      exact .write rfl fun x hx => marked_upd fun hEq => hMap ⟨x, hx, hEq⟩

theorem BlockStep.sb {a : BlockOp} (h : BlockStep c c' a) : c'.sb = c.sb := by
  cases h with
  | balloc h | bfree _ h => exact h.sb
  | write h _ => exact h

/-- A mark goes only by freeing the block. -/
theorem BlockStep.marked {a : BlockOp} (h : BlockStep c c' a) (hb : b < c.sb.size)
    (hMarked : marked c.sb c.buf b = true) (ha : a ≠ .bfree b) : Fs.marked c'.sb c'.buf b = true := by
  rw [h.sb]
  cases h with
  | balloc h =>
    rw [h.bits b fun hEq => h.map ⟨b, hb, hEq⟩, hMarked, Bool.or_true]
  | @bfree b' _ h =>
    have hne : b ≠ b' := fun hEq => ha (by rw [hEq])
    rw [h.bits, decide_eq_true hne, hMarked]
    rfl
  | write _ h => rw [h b hb, hMarked]

theorem BlockStep.mapOk {a : BlockOp} (h : BlockStep c c' a) (hOk : MapOk c) : MapOk c' where
  small := by
    rw [h.sb]
    exact hOk.small
  own y hy hMap := by
    rw [h.sb] at hy
    rw [Core.InMap, h.sb] at hMap
    refine h.marked hy (hOk.own y hy hMap) fun hFree => ?_
    rw [hFree] at h
    cases h with
    | bfree hNot _ => exact hNot hMap

/-- The blocks given out and not freed since are marked. -/
structure GivenOut (tr : List BlockOp) (c : Core) : Prop where
  ok     : MapOk c
  marked : ∀ pre mid b, tr = pre ++ .balloc b :: mid → .bfree b ∉ mid → b < c.sb.size ∧ marked c.sb c.buf b = true

theorem GivenOut.step {tr : List BlockOp} {a : BlockOp} (h : GivenOut tr c) (hStep : BlockStep c c' a) :
    GivenOut (tr ++ [a]) c' where
  ok := hStep.mapOk h.ok
  marked pre mid b hTr hNot := by
    rcases List.eq_nil_or_concat mid with rfl | ⟨mid', a', rfl⟩
    · -- the last step is the one that gave out `b`
      obtain ⟨-, rfl⟩ := List.append_inj' hTr rfl |>.imp_right List.singleton_inj.mp
      cases hStep with
      | balloc hAlloc =>
        rw [hAlloc.sb, hAlloc.bits b fun hEq => hAlloc.map ⟨b, hAlloc.free.1, hEq⟩, decide_eq_true rfl]
        exact ⟨hAlloc.free.1, rfl⟩
    · rw [List.concat_eq_append, ← List.cons_append, ← List.append_assoc] at hTr
      obtain ⟨hOld, hLast⟩ := List.append_inj' hTr rfl
      obtain rfl := List.singleton_inj.mp hLast
      rw [List.concat_eq_append, List.mem_append, not_or] at hNot
      obtain ⟨hb, hMarked⟩ := h.marked pre mid' b hOld hNot.1
      rw [hStep.sb]
      refine ⟨hb, ?_⟩
      rw [← hStep.sb]
      exact hStep.marked hb hMarked fun hEq => hNot.2 (hEq ▸ List.mem_singleton_self _)

theorem run_givenOut {tr : List BlockOp} (h : MapOk c) (hRun : (blockLts c).Run tr c') : GivenOut tr c' := by
  refine hRun.invariant (I := GivenOut) (fun s hs => ?_) fun tr s a s' _ hGiven hStep => ?_
  · obtain rfl : s = c := hs
    exact ⟨h, fun pre mid b hTr => by simp at hTr⟩
  · exact hGiven.step (blockStep_of_step hGiven.ok hStep)

/-- `balloc` returns the least block below `size` that is not marked, marks it and no other, and zeroes it and no other; it
panics only if there is none. `bfree` takes the mark of its block away and no other, and panics only if there is none. One after
the other they leave all blocks but the one they were about as they were; and in no sequence of calls is a block given out
twice without having been freed in between. -/
theorem bitmap_set (h : MapOk c) :
    (c.freeBlocks = ∅ ∧ balloc c = .error .ballocOutOfBlocks ∨
      ∃ b c', balloc c = .ok (b, c') ∧ Allocated b c c' ∧ ∃ c'', bfree b c' = .ok ((), c'') ∧ ∀ y ≠ b, c''.buf y = c.buf y) ∧
    (∀ b < c.sb.size, marked c.sb c.buf b = false ∧ bfree b c = .error .freeingFreeBlock ∨
      ∃ c', bfree b c = .ok ((), c') ∧ Unmarked b c c') ∧
    ∀ tr c', (blockLts c).Run tr c' → ∀ pre mid post b, tr = pre ++ .balloc b :: mid ++ .balloc b :: post → .bfree b ∈ mid := by
  refine ⟨?_, fun b _ => ?_, fun tr c' hRun pre mid post b hTr => ?_⟩
  · rcases balloc_eq c with hNone | ⟨b, hFree, hLeast, hRun⟩
    · exact .inl hNone
    · have hAlloc := allocated_take h hFree hLeast
      have hne : c.sb.bblock b ≠ b := fun hEq => hAlloc.map ⟨b, hAlloc.free.1, hEq⟩
      refine .inr ⟨b, c.take b, hRun, hAlloc, (c.take b).unmark b, ?_, fun y hy => take_unmark hAlloc.free.2 hne hy⟩
      have hMarked : marked (c.take b).sb (c.take b).buf b = true := by
        rw [hAlloc.sb, hAlloc.bits b hne, decide_eq_true rfl, Bool.true_or]
      rw [bfree_eq, if_pos hMarked]
  · rw [bfree_eq]
    cases hMarked : marked c.sb c.buf b with
    | true => exact .inr ⟨c.unmark b, rfl, unmarked_unmark c b⟩
    | false => exact .inl ⟨rfl, rfl⟩
  · by_contra hNot
    rw [hTr] at hRun
    obtain ⟨s₁, s₂, hRun₁, hStep⟩ := hRun.split
    have hGiven := run_givenOut h hRun₁
    obtain ⟨-, hMarked⟩ := hGiven.marked pre mid b rfl hNot
    cases blockStep_of_step hGiven.ok hStep with
    | balloc hAlloc =>
      rw [hAlloc.free.2] at hMarked
      exact nomatch hMarked

/-- Two blocks, the second of which is the free map, with the marks `v`. -/
def twoBlocks (v : Block) : Core where
  buf y := if y = 1 then v else zeroBlock
  disk _ := zeroBlock
  sb := { magic := 0, size := 2, nblocks := 0, ninodes := 0, nlog := 0, logstart := 0, inodestart := 0, bmapstart := 1 }
  itable _ := .empty

theorem bitmap_set_two : ∃ b c', balloc (twoBlocks (setBit zeroBlock 1)) = .ok (b, c') ∧
    Allocated b (twoBlocks (setBit zeroBlock 1)) c' := by
  have hOk : MapOk (twoBlocks (setBit zeroBlock 1)) := ⟨by decide, by decide +kernel⟩
  rcases (bitmap_set hOk).1 with ⟨hNone, -⟩ | ⟨b, c', hRun, hAlloc, -⟩
  · have hFree : 0 ∈ (twoBlocks (setBit zeroBlock 1)).freeBlocks := mem_freeBlocks.mpr ⟨by decide, by decide +kernel⟩
    rw [hNone] at hFree
    exact nomatch hFree
  · exact ⟨b, c', hRun, hAlloc⟩

/-- When the free map is not marked in use, `balloc` returns it and clears it, and soon returns it again. -/
theorem bitmap_lost : ∃ c c', c.sb.size + BPB < 2 ^ 31 ∧ (blockLts c).Run [.balloc 1, .balloc 0, .balloc 1] c' := by
  have hRun : ((blockLts (twoBlocks (setBit zeroBlock 0))).exec (twoBlocks (setBit zeroBlock 0))
      [.balloc 1, .balloc 0, .balloc 1]).isSome = true := by decide +kernel
  obtain ⟨c', hExec⟩ := Option.isSome_iff_exists.mp hRun
  exact ⟨_, c', by decide, Lts.run_of_exec (.start rfl) hExec⟩

end Xv6.Fs
