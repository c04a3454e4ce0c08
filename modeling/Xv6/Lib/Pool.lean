import Mathlib.Algebra.BigOperators.Group.Finset.Basic
import Mathlib.Algebra.Order.BigOperators.Group.Multiset

/-!
# A pool of things and what their owners hold

A program takes things out of a pool and puts them back, and writes to the contents of those it
holds. `Moves A A' s s'` says that from `s` to `s'` the holdings of the program changed from `A` to
`A'`: nothing was lost, gained or doubled on the way (`conserve`), and nothing was written but what
was in the pool or held (`frame`).

Moves compose, and a program that holds more than it uses leaves the rest alone. So a function is
specified by what it holds before and after, and its callers add what they hold besides.
-/

structure Pool (σ ι β : Type) where
  free : σ → Multiset ι
  cell : σ → ι → β

namespace Pool

variable {σ ι β : Type} (P : Pool σ ι β)

structure Moves (A A' : Multiset ι) (s s' : σ) : Prop where
  conserve : P.free s' + A' = P.free s + A
  frame    : ∀ x, x ∉ P.free s + A → P.cell s' x = P.cell s x

variable {P} {A A' A'' B : Multiset ι} {s s' s'' : σ}

theorem Moves.refl (A : Multiset ι) (s : σ) : P.Moves A A s s := ⟨rfl, fun _ _ => rfl⟩

theorem Moves.trans (h : P.Moves A A' s s') (h' : P.Moves A' A'' s' s'') : P.Moves A A'' s s'' where
  conserve := h'.conserve.trans h.conserve
  frame x hx := (h'.frame x (by rwa [h.conserve])).trans (h.frame x hx)

/-- Whoever holds more leaves the rest alone. -/
theorem Moves.add (h : P.Moves A A' s s') (B : Multiset ι) : P.Moves (A + B) (A' + B) s s' where
  conserve := by rw [← add_assoc, h.conserve, add_assoc]
  frame x hx := h.frame x fun hMem => hx (by rw [← add_assoc]; exact Multiset.mem_add.mpr (.inl hMem))

theorem Moves.add_left (h : P.Moves A A' s s') (B : Multiset ι) : P.Moves (B + A) (B + A') s s' := by
  rw [add_comm B, add_comm B]
  exact h.add B

/-- What else is held keeps its contents. -/
theorem Moves.cell_eq (h : P.Moves A A' s s') (hNodup : (P.free s + (A + B)).Nodup) {x : ι}
    (hx : x ∈ B) : P.cell s' x = P.cell s x := by
  refine h.frame x fun hMem => ?_
  rw [← add_assoc] at hNodup
  exact Multiset.disjoint_left.mp (Multiset.nodup_add.mp hNodup).2.2 hMem hx

variable (P) in
/-- Things are in the pool or held, each of them once, and all of them are `ok`. -/
structure Valid (ok : ι → Prop) (A : Multiset ι) (s : σ) : Prop where
  nodup : (P.free s + A).Nodup
  ok    : ∀ x ∈ P.free s + A, ok x

variable {ok : ι → Prop}

theorem Moves.valid (h : P.Moves A A' s s') (hv : P.Valid ok A s) : P.Valid ok A' s' :=
  ⟨h.conserve ▸ hv.nodup, fun x hx => hv.ok x (h.conserve ▸ hx)⟩

theorem Valid.left (h : P.Valid ok (A + B) s) : P.Valid ok A s := by
  obtain ⟨hNodup, hOk⟩ := h
  rw [← add_assoc] at hNodup hOk
  exact ⟨(Multiset.nodup_add.mp hNodup).1, fun x hx => hOk x (Multiset.mem_add.mpr (.inl hx))⟩

theorem Valid.right (h : P.Valid ok (A + B) s) : P.Valid ok B s := by
  rw [add_comm] at h
  exact h.left

/-- A part of what is held. -/
theorem Valid.part {C : Multiset ι} (h : P.Valid ok A s) (hEq : A = B + C) : P.Valid ok B s := (hEq ▸ h).left

theorem Valid.zero (h : P.Valid ok A s) : P.Valid ok 0 s :=
  Valid.left (A := 0) (B := A) (by rwa [zero_add])

theorem Valid.held (h : P.Valid ok A s) : A.Nodup := (Multiset.nodup_add.mp h.nodup).2.1

theorem Valid.ok_of_mem (h : P.Valid ok A s) {x : ι} (hx : x ∈ A) : ok x :=
  h.ok x (Multiset.mem_add.mpr (.inr hx))

theorem Valid.notMem_free (h : P.Valid ok A s) {x : ι} (hx : x ∈ A) : x ∉ P.free s :=
  Multiset.disjoint_right.mp (Multiset.nodup_add.mp h.nodup).2.2 hx

end Pool
