import Mathlib.Algebra.BigOperators.Group.Finset.Basic
import Mathlib.Data.Multiset.Count
import Xv6.Lib.Upd

/-!
# Reference counts

Things are named by `ι`, and each thing that exists (`ok`) has a counter, `ref`. The references to
them, wherever they are kept, are a multiset `R`, and `RefCount ok ref R` says that the counters
are right: each one is the number of references to its thing.

To make a reference and count it, or to drop one and count it, keeps that. A counter that is zero
says that the thing can be used anew.

References are kept in tables: `total s g t` is what the entries `s` of the table `t` hold, if the entry
`a` holds `g a`.
-/

variable {ι κ : Type} [DecidableEq ι] {ok : ι → Prop} {ref ref' : ι → Nat} {R : Multiset ι} {k : ι}

/-- The reference that a place holds, if it holds one. -/
def ofOption (x : Option κ) : Multiset κ :=
  match x with
  | some k => {k}
  | none => 0

@[simp] theorem ofOption_some (k : κ) : ofOption (some k) = {k} := rfl

@[simp] theorem ofOption_none : ofOption (none : Option κ) = 0 := rfl

theorem mem_ofOption {x : Option κ} {k : κ} : k ∈ ofOption x ↔ x = some k := by
  cases x with
  | none => simp
  | some j => simp [eq_comm]

structure RefCount (ok : ι → Prop) (ref : ι → Nat) (R : Multiset ι) : Prop where
  valid : ∀ k ∈ R, ok k
  eq    : ∀ k, ok k → ref k = R.count k

namespace RefCount

theorem congr (h : RefCount ok ref R) (hRef : ∀ k, ok k → ref' k = ref k) : RefCount ok ref' R where
  valid := h.valid
  eq k hk := (hRef k hk).trans (h.eq k hk)

/-- No references. -/
theorem nil (h : ∀ k, ok k → ref k = 0) : RefCount ok ref 0 where
  valid k hk := absurd hk (Multiset.notMem_zero k)
  eq k hk := (h k hk).trans (Multiset.count_zero k).symm

/-- One more reference. -/
theorem take (h : RefCount ok ref R) (hk : ok k) : RefCount ok (upd ref k (ref k + 1)) ({k} + R) where
  valid j hj := by
    rcases Multiset.mem_add.mp hj with hj | hj
    · rwa [Multiset.mem_singleton.mp hj]
    · exact h.valid j hj
  eq j hj := by
    rw [Multiset.count_add, Multiset.count_singleton]
    by_cases hjk : j = k
    · rw [hjk, upd_self, h.eq k hk, if_pos rfl, add_comm]
    · rw [upd_of_ne hjk, h.eq j hj, if_neg hjk, zero_add]

/-- Many more references. -/
theorem add {S : Multiset ι} (h : RefCount ok ref R) (hS : ∀ k ∈ S, ok k) :
    RefCount ok (fun k => ref k + S.count k) (S + R) where
  valid j hj := by
    rcases Multiset.mem_add.mp hj with hj | hj
    · exact hS j hj
    · exact h.valid j hj
  eq j hj := by rw [Multiset.count_add, h.eq j hj, add_comm]

/-- One reference less. -/
theorem drop (h : RefCount ok ref ({k} + R)) : RefCount ok (upd ref k (ref k - 1)) R where
  valid j hj := h.valid j (Multiset.mem_add.mpr (.inr hj))
  eq j hj := by
    have hCount := h.eq j hj
    rw [Multiset.count_add, Multiset.count_singleton] at hCount
    by_cases hjk : j = k
    · rw [if_pos hjk] at hCount
      rw [hjk] at hCount ⊢
      rw [upd_self, hCount, Nat.add_sub_cancel_left]
    · rw [upd_of_ne hjk, hCount, if_neg hjk, zero_add]

theorem ok_head (h : RefCount ok ref ({k} + R)) : ok k :=
  h.valid k (Multiset.mem_add.mpr (.inl (Multiset.mem_singleton_self k)))

theorem eq_head (h : RefCount ok ref ({k} + R)) : ref k = 1 + R.count k := by
  rw [h.eq k h.ok_head, Multiset.count_add, Multiset.count_singleton_self]

theorem pos (h : RefCount ok ref ({k} + R)) : 0 < ref k := by
  rw [h.eq_head]
  exact Nat.add_pos_left Nat.one_pos _

theorem notMem (h : RefCount ok ref R) (hk : ok k) (hZero : ref k = 0) : k ∉ R :=
  Multiset.count_eq_zero.mp ((h.eq k hk).symm.trans hZero)

end RefCount

namespace RefCount

/-- The same references, kept elsewhere. -/
theorem moved {R' : Multiset ι} (h : RefCount ok ref R) (hR : R' = R) : RefCount ok ref R' := hR ▸ h

end RefCount

section Tables

variable {α M : Type} [AddCommMonoid M] {s : Finset ι} {g : α → M} {t : ι → α} {v : α}

def total (s : Finset ι) (g : α → M) (t : ι → α) : M := ∑ k ∈ s, g (t k)

theorem total_split (hk : k ∈ s) (g : α → M) (t : ι → α) : total s g t = g (t k) + total (s.erase k) g t :=
  (Finset.add_sum_erase s (fun k => g (t k)) hk).symm

omit [DecidableEq ι] in
theorem total_congr {t' : ι → α} (h : ∀ k ∈ s, g (t' k) = g (t k)) : total s g t' = total s g t :=
  Finset.sum_congr rfl h

/-- An entry that holds as much as before. -/
theorem total_same (h : g v = g (t k)) : total s g (upd t k v) = total s g t :=
  total_congr fun j _ => by
    by_cases hj : j = k
    · rw [hj, upd_self, h]
    · rw [upd_of_ne hj]

theorem total_upd (hk : k ∈ s) : total s g (upd t k v) = g v + total (s.erase k) g t := by
  rw [total_split hk, upd_self]
  congr 1
  exact total_congr fun j hj => by rw [upd_of_ne (Finset.ne_of_mem_erase hj)]

/-- An entry that held nothing gets something. -/
theorem total_put (hk : k ∈ s) (hOld : g (t k) = 0) : total s g (upd t k v) = g v + total s g t := by
  rw [total_upd hk, total_split hk g t, hOld, zero_add]

/-- What an entry held is taken out. -/
theorem total_take (hk : k ∈ s) (hNew : g v = 0) : g (t k) + total s g (upd t k v) = total s g t := by
  rw [total_upd hk, total_split hk g t, hNew, zero_add]

end Tables
