import Mathlib.Algebra.Notation.Defs
import Mathlib.Data.Set.Basic

/-!
# Things in use and their owners

An allocator keeps a set `M` of the things in use; elsewhere, places `x` name the things they use,
`A x` (zero: none). `Owns A M` says that the two agree: a thing that is named is in use, no
thing is named at two places, and a thing in use is named somewhere. Taking a new thing
and writing it down at an empty place keeps that, and so does clearing places and returning
what they named.
-/

namespace Owner

variable {ι β : Type} [Zero β]

structure Owns (A : ι → β) (M : β → Prop) : Prop where
  sound : ∀ x, A x ≠ 0 → M (A x)
  inj   : ∀ x y, A x ≠ 0 → A x = A y → x = y
  full  : ∀ b, M b → b ≠ 0 ∧ ∃ x, A x = b

variable {A A' : ι → β} {M M' : β → Prop}

theorem Owns.congr (h : Owns A M) (hA : ∀ x, A' x = A x) (hM : ∀ b, M' b ↔ M b) :
    Owns A' M' := by
  obtain rfl : A' = A := funext hA
  obtain rfl : M' = M := funext fun b => propext (hM b)
  exact h

/-- Place `x`, which named nothing, now names `b`, which was not in use. -/
theorem Owns.attach [DecidableEq ι] (h : Owns A M) {x : ι} {b : β} (hx : A x = 0) (hb : b ≠ 0)
    (hFree : ¬ M b) (hA : ∀ y, A' y = if y = x then b else A y)
    (hM : ∀ b', M' b' ↔ b' = b ∨ M b') : Owns A' M' where
  sound y hy := by
    rw [hM, hA y]
    rw [hA y] at hy
    split
    · exact Or.inl rfl
    · rename_i hne
      rw [if_neg hne] at hy
      exact Or.inr (h.sound y hy)
  inj y z hy hyz := by
    -- a place that named something before does not name `b`
    have hOld : ∀ w, A w ≠ 0 → A w ≠ b := fun w hw hwb => hFree (hwb ▸ h.sound w hw)
    rw [hA y, hA z] at hyz
    rw [hA y] at hy
    by_cases hyx : y = x <;> by_cases hzx : z = x
    · rw [hyx, hzx]
    · rw [if_pos hyx, if_neg hzx] at hyz
      exact absurd hyz.symm (hOld z (hyz ▸ hb))
    · rw [if_neg hyx, if_pos hzx] at hyz
      exact absurd hyz (hOld y (hyz ▸ hb))
    · rw [if_neg hyx] at hy
      rw [if_neg hyx, if_neg hzx] at hyz
      exact h.inj y z hy hyz
  full b' hb' := by
    rcases (hM b').mp hb' with rfl | hOld
    · exact ⟨hb, x, by rw [hA, if_pos rfl]⟩
    · obtain ⟨hne, y, hy⟩ := h.full b' hOld
      have hyx : y ≠ x := fun hyx => hne (by rw [← hy, hyx, hx])
      exact ⟨hne, y, by rw [hA, if_neg hyx, hy]⟩

/-- The places in `P` are cleared, and what they named is no longer in use. -/
theorem Owns.detach (h : Owns A M) (P : ι → Prop) (hP : ∀ x, P x → A' x = 0)
    (hKeep : ∀ x, ¬ P x → A' x = A x) (hM : ∀ b, M' b ↔ M b ∧ ∀ x, P x → A x ≠ b) :
    Owns A' M' where
  sound y hy := by
    have hNot : ¬ P y := fun hp => hy (hP y hp)
    rw [hKeep y hNot] at hy ⊢
    exact (hM _).mpr ⟨h.sound y hy, fun x hx hxy =>
      hNot (h.inj y x hy hxy.symm ▸ hx)⟩
  inj y z hy hyz := by
    have hNotY : ¬ P y := fun hp => hy (hP y hp)
    have hNotZ : ¬ P z := fun hp => hy (hyz.trans (hP z hp))
    rw [hKeep y hNotY] at hy hyz
    rw [hKeep z hNotZ] at hyz
    exact h.inj y z hy hyz
  full b hb := by
    obtain ⟨hOld, hOther⟩ := (hM b).mp hb
    obtain ⟨hne, x, hx⟩ := h.full b hOld
    exact ⟨hne, x, by rw [hKeep x (fun hp => hOther x hp hx), hx]⟩

end Owner
