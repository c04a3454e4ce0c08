import Xv6.Lib.Upd
import Mathlib.Tactic.Ring
import Mathlib.Algebra.Order.BigOperators.Group.Multiset

/-!
# Radix trees of tables in a memory

A memory `cell` holds tables of `B` words; a word of a table is empty, points to a table of the
next lower level or, at level 0, is a leaf, as `dec` reads it. `Tree cell l t A f` says that table
`t` is the root of a tree of level `l` that is made of the tables `A` and maps the number `v`, below
`B ^ (l + 1)`, to `f v`. The digits of `v` to the base `B` are the places on its path.

The subtrees are made of different tables, so a change inside one of them, or of the word that
points to it, is a change of one block of the map: `Tree.focus` takes a block out and says what it
needs to put a changed one back in. `Tree.set` is the change of a leaf.
-/

/-- How a word of a table is read. -/
inductive Slot (ι W : Type) where
  | empty
  | node (t : ι)
  | leaf (w : W)

namespace Radix

open Finset

variable {ι W : Type}

/-- Digit `l` of a number. -/
def digit (B l v : Nat) : Nat := v / B ^ l % B

theorem mod_pow_succ (B l v : Nat) :
    v % B ^ (l + 2) = digit B (l + 1) v * B ^ (l + 1) + v % B ^ (l + 1) := by
  rw [Nat.mod_pow_succ, digit, add_comm, mul_comm]

variable (dec : W → Slot ι W) (B : Nat)

def Slot.ofOption : Option W → Slot ι W
  | none => .empty
  | some w => .leaf w

def Tree (cell : ι → Nat → W) : (l : Nat) → ι → Multiset ι → (Nat → Option W) → Prop
  | 0, t, A, f => A = {t} ∧ ∀ k < B, dec (cell t k) = Slot.ofOption (f k)
  | l + 1, t, A, f => ∃ sub : Nat → Multiset ι, A = {t} + ∑ i ∈ range B, sub i ∧ ∀ i < B,
      (dec (cell t i) = .empty ∧ sub i = 0 ∧ ∀ v < B ^ (l + 1), f (i * B ^ (l + 1) + v) = none) ∨
      ∃ c, dec (cell t i) = .node c ∧ Tree cell l c (sub i) fun v => f (i * B ^ (l + 1) + v)

/-- What hangs at word `i` of a table of level `l + 1`. -/
def Block (cell : ι → Nat → W) (l : Nat) (t : ι) (i : Nat) (S : Multiset ι) (f : Nat → Option W) :
    Prop :=
  (dec (cell t i) = .empty ∧ S = 0 ∧ ∀ v < B ^ (l + 1), f (i * B ^ (l + 1) + v) = none) ∨
  ∃ c, dec (cell t i) = .node c ∧ Tree dec B cell l c S fun v => f (i * B ^ (l + 1) + v)

/-- The table of level 0 on the path of `v`. -/
def At (cell : ι → Nat → W) : (l : Nat) → ι → Nat → ι → Prop
  | 0, t, _, t₀ => t₀ = t
  | l + 1, t, v, t₀ => ∃ c, dec (cell t (digit B (l + 1) v)) = .node c ∧ At cell l c v t₀

/-- The leaf that `v` leads to. -/
def look (cell : ι → Nat → W) : (l : Nat) → ι → Nat → Option W
  | 0, t, v =>
    match dec (cell t (v % B)) with
    | .leaf w => some w
    | _ => none
  | l + 1, t, v =>
    match dec (cell t (digit B (l + 1) v)) with
    | .node c => look cell l c v
    | _ => none

/-- The tables below a table of level `l`, with it. -/
def nodes (cell : ι → Nat → W) : (l : Nat) → ι → Multiset ι
  | 0, t => {t}
  | l + 1, t => {t} + ∑ i ∈ range B,
    match dec (cell t i) with
    | .node c => nodes cell l c
    | _ => 0

variable {dec B} {cell cell' : ι → Nat → W} {l : Nat} {t : ι} {A : Multiset ι}
  {f f' : Nat → Option W}

theorem digit_lt (hB : 0 < B) (l v : Nat) : digit B l v < B := Nat.mod_lt _ hB

/-- The place of `v` in its block. -/
theorem block_index_lt {i v : Nat} (hi : i < B) (hv : v < B ^ (l + 1)) :
    i * B ^ (l + 1) + v < B ^ (l + 2) := by
  calc i * B ^ (l + 1) + v < i * B ^ (l + 1) + B ^ (l + 1) := by omega
    _ = (i + 1) * B ^ (l + 1) := by ring
    _ ≤ B * B ^ (l + 1) := Nat.mul_le_mul_right _ hi
    _ = B ^ (l + 2) := by ring

theorem tree_succ : Tree dec B cell (l + 1) t A f ↔ ∃ sub : Nat → Multiset ι,
    A = {t} + ∑ i ∈ range B, sub i ∧ ∀ i < B, Block dec B cell l t i (sub i) f :=
  Iff.rfl

theorem Tree.root_mem (h : Tree dec B cell l t A f) : t ∈ A := by
  cases l with
  | zero => rw [h.1]; exact Multiset.mem_singleton_self t
  | succ l =>
    obtain ⟨sub, rfl, -⟩ := h
    exact Multiset.mem_add.mpr (.inl (Multiset.mem_singleton_self t))

/-- A tree only depends on its tables and on the map in its range. -/
theorem Tree.congr (h : Tree dec B cell l t A f) (hCell : ∀ x ∈ A, cell' x = cell x)
    (hMap : ∀ v < B ^ (l + 1), f' v = f v) : Tree dec B cell' l t A f' := by
  induction l generalizing t A f f' with
  | zero =>
    obtain ⟨rfl, hLeaf⟩ := h
    refine ⟨rfl, fun k hk => ?_⟩
    rw [hCell t (Multiset.mem_singleton_self t), hLeaf k hk, hMap k (by simpa using hk)]
  | succ l ih =>
    obtain ⟨sub, rfl, hSub⟩ := h
    have hRoot : cell' t = cell t :=
      hCell t (Multiset.mem_add.mpr (.inl (Multiset.mem_singleton_self t)))
    refine ⟨sub, rfl, fun i hi => ?_⟩
    rw [hRoot]
    rcases hSub i hi with ⟨hDec, hNone, hEmpty⟩ | ⟨c, hDec, hTree⟩
    · exact .inl ⟨hDec, hNone, fun v hv => by rw [hMap _ (block_index_lt hi hv), hEmpty v hv]⟩
    · refine .inr ⟨c, hDec, ih hTree (fun x hx => hCell x ?_) fun v hv => hMap _ (block_index_lt hi hv)⟩
      exact Multiset.mem_add.mpr (.inr (Multiset.mem_sum.mpr ⟨i, mem_range.mpr hi, hx⟩))

/-- The block at word `i` can be exchanged. -/
theorem Tree.focus (h : Tree dec B cell (l + 1) t A f) {i : Nat} (hi : i < B) :
    ∃ S R : Multiset ι, A = S + ({t} + R) ∧ Block dec B cell l t i S f ∧
      ∀ (cell' : ι → Nat → W) (S' : Multiset ι) (f' : Nat → Option W),
        (∀ x ∈ R, cell' x = cell x) → (∀ j < B, j ≠ i → cell' t j = cell t j) →
        (∀ j < B, j ≠ i → ∀ v < B ^ (l + 1), f' (j * B ^ (l + 1) + v) = f (j * B ^ (l + 1) + v)) →
        Block dec B cell' l t i S' f' → Tree dec B cell' (l + 1) t (S' + ({t} + R)) f' := by
  obtain ⟨sub, rfl, hSub⟩ := h
  have hMem : i ∈ range B := mem_range.mpr hi
  refine ⟨sub i, ∑ j ∈ (range B).erase i, sub j, ?_, hSub i hi, ?_⟩
  · rw [← add_sum_erase _ sub hMem, add_left_comm]
  · intro cell' S' f' hCell hRoot hMap hBlock
    refine tree_succ.mpr ⟨upd sub i S', ?_, fun j hj => ?_⟩
    · have hRest : ∑ j ∈ (range B).erase i, upd sub i S' j = ∑ j ∈ (range B).erase i, sub j :=
        sum_congr rfl fun j hj => upd_of_ne (ne_of_mem_erase hj)
      rw [← add_sum_erase _ (upd sub i S') hMem, upd_self, hRest, add_left_comm]
    · by_cases hji : j = i
      · rw [hji, upd_self]
        exact hBlock
      · rw [upd_of_ne hji, Block, hRoot j hj hji]
        rcases hSub j hj with ⟨hDec, hNone, hEmpty⟩ | ⟨c, hDec, hTree⟩
        · exact .inl ⟨hDec, hNone, fun v hv => by rw [hMap j hj hji v hv, hEmpty v hv]⟩
        · refine .inr ⟨c, hDec, hTree.congr (fun x hx => hCell x ?_) (hMap j hj hji)⟩
          exact Multiset.mem_sum.mpr ⟨j, mem_erase.mpr ⟨hji, mem_range.mpr hj⟩, hx⟩

/-- The blocks of a tree whose tables are all different share none. -/
theorem Tree.blocks (h : Tree dec B cell (l + 1) t A f) (hNodup : A.Nodup) :
    ∃ sub : Nat → Multiset ι, ∀ i < B, Block dec B cell l t i (sub i) f ∧ (sub i).Nodup ∧
      ∀ j < B, j ≠ i → Disjoint (sub i) (sub j) := by
  obtain ⟨sub, rfl, hSub⟩ := h
  refine ⟨sub, fun i hi => ⟨hSub i hi, ?_⟩⟩
  have hSum : (sub i + ∑ j ∈ (range B).erase i, sub j).Nodup := by
    rw [add_sum_erase _ sub (mem_range.mpr hi)]
    exact (Multiset.nodup_add.mp hNodup).2.1
  obtain ⟨hNodup, -, hDisj⟩ := Multiset.nodup_add.mp hSum
  refine ⟨hNodup, fun j hj hji => Multiset.disjoint_left.mpr fun hx hx' => ?_⟩
  exact Multiset.disjoint_left.mp hDisj hx (Multiset.mem_sum.mpr ⟨j, mem_erase.mpr ⟨hji, mem_range.mpr hj⟩, hx'⟩)

/-- A table of empty words is a tree, of any level. -/
theorem Tree.empty (h : ∀ k < B, dec (cell t k) = .empty) :
    Tree dec B cell l t {t} fun _ => none := by
  cases l with
  | zero => exact ⟨rfl, h⟩
  | succ l =>
    refine ⟨fun _ => 0, by simp, fun i hi => .inl ⟨h i hi, rfl, fun _ _ => rfl⟩⟩

/-- When all words of the root are empty there is no other table. -/
theorem Tree.eq_singleton (h : Tree dec B cell l t A f) (hEmpty : ∀ k < B, dec (cell t k) = .empty) :
    A = {t} := by
  cases l with
  | zero => exact h.1
  | succ l =>
    obtain ⟨sub, rfl, hSub⟩ := h
    have hZero : ∑ i ∈ range B, sub i = 0 := sum_eq_zero fun i hi => by
      rcases hSub i (mem_range.mp hi) with ⟨-, hNone, -⟩ | ⟨c, hDec, -⟩
      · exact hNone
      · rw [hEmpty i (mem_range.mp hi)] at hDec
        cases hDec
    rw [hZero, add_zero]

theorem Tree.at_mem (hB : 0 < B) (h : Tree dec B cell l t A f) {v : Nat} {t₀ : ι}
    (hAt : At dec B cell l t v t₀) : t₀ ∈ A := by
  induction l generalizing t A f with
  | zero =>
    rw [At] at hAt
    exact hAt ▸ h.root_mem
  | succ l ih =>
    obtain ⟨c, hDec, hAt⟩ := hAt
    obtain ⟨S, R, rfl, hBlock, -⟩ := h.focus (digit_lt hB (l + 1) v)
    rcases hBlock with ⟨hEmpty, -⟩ | ⟨c', hDec', hTree⟩
    · rw [hEmpty] at hDec
      cases hDec
    · rw [hDec'] at hDec
      cases hDec
      exact Multiset.mem_add.mpr (.inl (ih hTree hAt))

/-- Paths only depend on the tables of the tree. -/
theorem Tree.at_congr (hB : 0 < B) (h : Tree dec B cell l t A f) (hCell : ∀ x ∈ A, cell' x = cell x)
    {v : Nat} {t₀ : ι} (hAt : At dec B cell l t v t₀) : At dec B cell' l t v t₀ := by
  induction l generalizing t A f with
  | zero => exact hAt
  | succ l ih =>
    obtain ⟨c, hDec, hAt⟩ := hAt
    have hRoot := hCell t h.root_mem
    obtain ⟨S, R, rfl, hBlock, -⟩ := h.focus (digit_lt hB (l + 1) v)
    rcases hBlock with ⟨hEmpty, -⟩ | ⟨c', hDec', hTree⟩
    · rw [hEmpty] at hDec
      cases hDec
    · rw [hDec'] at hDec
      cases hDec
      exact ⟨c, by rw [hRoot, hDec'], ih hTree (fun x hx => hCell x (Multiset.mem_add.mpr (.inl hx))) hAt⟩

/-- The word that `v` leads to. -/
theorem Tree.dec_at (hB : 0 < B) (h : Tree dec B cell l t A f) {v : Nat} {t₀ : ι}
    (hAt : At dec B cell l t v t₀) :
    dec (cell t₀ (v % B)) = Slot.ofOption (f (v % B ^ (l + 1))) := by
  induction l generalizing t A f with
  | zero =>
    rw [At] at hAt
    rw [hAt, h.2 _ (Nat.mod_lt v hB), Nat.zero_add, pow_one]
  | succ l ih =>
    obtain ⟨c, hDec, hAt⟩ := hAt
    obtain ⟨S, R, rfl, hBlock, -⟩ := h.focus (digit_lt hB (l + 1) v)
    rcases hBlock with ⟨hEmpty, -⟩ | ⟨c', hDec', hTree⟩
    · rw [hEmpty] at hDec
      cases hDec
    · rw [hDec'] at hDec
      cases hDec
      rw [ih hTree hAt, mod_pow_succ]

theorem Tree.look (hB : 0 < B) (h : Tree dec B cell l t A f) (v : Nat) :
    look dec B cell l t v = f (v % B ^ (l + 1)) := by
  induction l generalizing t A f with
  | zero =>
    have hDec := h.2 _ (Nat.mod_lt v hB)
    rw [Radix.look, hDec, Nat.zero_add, pow_one]
    cases f (v % B) <;> rfl
  | succ l ih =>
    obtain ⟨S, R, rfl, hBlock, -⟩ := h.focus (digit_lt hB (l + 1) v)
    rw [Radix.look, mod_pow_succ]
    rcases hBlock with ⟨hDec, -, hNone⟩ | ⟨c, hDec, hTree⟩
    · rw [hDec, hNone _ (Nat.mod_lt _ (Nat.pow_pos hB))]
    · rw [hDec]
      exact ih hTree

theorem Tree.nodes (h : Tree dec B cell l t A f) : nodes dec B cell l t = A := by
  induction l generalizing t A f with
  | zero => exact h.1.symm
  | succ l ih =>
    obtain ⟨sub, rfl, hSub⟩ := h
    rw [Radix.nodes]
    refine congrArg _ (sum_congr rfl fun i hi => ?_)
    rcases hSub i (mem_range.mp hi) with ⟨hDec, hNone, -⟩ | ⟨c, hDec, hTree⟩
    · rw [hDec, hNone]
    · rw [hDec]
      exact ih hTree

variable [DecidableEq ι]

/-- The word that `v` leads to is changed. -/
theorem Tree.set (hB : 0 < B) (h : Tree dec B cell l t A f) (hNodup : A.Nodup) {v : Nat} {t₀ : ι}
    (hAt : At dec B cell l t v t₀) {w : W} {x : Option W} (hw : dec w = Slot.ofOption x) :
    Tree dec B (upd cell t₀ (upd (cell t₀) (v % B) w)) l t A (upd f (v % B ^ (l + 1)) x) := by
  induction l generalizing t A f with
  | zero =>
    rw [At] at hAt
    subst hAt
    refine ⟨h.1, fun k hk => ?_⟩
    rw [upd_self, Nat.zero_add, pow_one]
    by_cases hkv : k = v % B
    · rw [hkv, upd_self, upd_self, hw]
    · rw [upd_of_ne hkv, upd_of_ne hkv, h.2 k hk]
  | succ l ih =>
    obtain ⟨c, hDec, hAt⟩ := hAt
    have hi := digit_lt hB (l + 1) v
    obtain ⟨S, R, rfl, hBlock, hClose⟩ := h.focus hi
    obtain ⟨hS, hRest, hDisj⟩ := Multiset.nodup_add.mp hNodup
    rcases hBlock with ⟨hEmpty, -⟩ | ⟨c', hDec', hTree⟩
    · rw [hEmpty] at hDec
      cases hDec
    · rw [hDec'] at hDec
      cases hDec
      -- the table that is written is in the subtree, not the root or in another one
      have hOut : ∀ x ∈ {t} + R, upd cell t₀ (upd (cell t₀) (v % B) w) x = cell x := fun x hx =>
        upd_of_ne fun hEq => Multiset.disjoint_left.mp hDisj (hTree.at_mem hB hAt) (hEq ▸ hx)
      have hRoot := hOut t (Multiset.mem_add.mpr (.inl (Multiset.mem_singleton_self t)))
      refine hClose _ S _ (fun x hx => hOut x (Multiset.mem_add.mpr (.inr hx)))
        (fun j _ _ => by rw [hRoot]) (fun j hj hji u hu => ?_) (.inr ⟨c, by rw [hRoot, hDec'], ?_⟩)
      · refine upd_of_ne fun hEq => hji ?_
        rw [mod_pow_succ] at hEq
        have hP : 0 < B ^ (l + 1) := Nat.pow_pos hB
        have hDiv := congrArg (· / B ^ (l + 1)) hEq
        simpa [Nat.mul_comm _ (B ^ (l + 1)), Nat.mul_add_div hP, Nat.div_eq_of_lt hu,
          Nat.div_eq_of_lt (Nat.mod_lt v hP)] using hDiv
      · refine (ih hTree hS hAt).congr (fun _ _ => rfl) fun u hu => ?_
        by_cases huv : u = v % B ^ (l + 1)
        · rw [huv, upd_self, mod_pow_succ, upd_self]
        · rw [upd_of_ne huv, mod_pow_succ, upd_of_ne fun hEq => huv (Nat.add_left_cancel hEq)]

end Radix
