import Xv6.Lib.Upd

/-!
# A map kept in slots

A finite map written down as an array of slots, each empty or holding a key and its value, in no order. While no key is held
twice (`Once`), filling an empty slot adds a key, and emptying a slot removes the key it held (`Shows.put`, `Shows.clear`).
-/

namespace Slots

variable {K V : Type} {e : Nat → Option (K × V)} {m : K → Option V} {j : Nat} {k : K} {v : V}

/-- No two slots hold the same key. -/
def Once (e : Nat → Option (K × V)) : Prop := ∀ i j k v w, e i = some (k, v) → e j = some (k, w) → i = j

/-- The slots `e` hold the map `m`. -/
def Shows (e : Nat → Option (K × V)) (m : K → Option V) : Prop := ∀ k v, m k = some v ↔ ∃ j, e j = some (k, v)

theorem Shows.absent (h : Shows e m) (hNone : m k = none) (j : Nat) (v : V) : e j ≠ some (k, v) := by
  intro hj
  rw [(h k v).mpr ⟨j, hj⟩] at hNone
  exact nomatch hNone

theorem Once.put (h : Once e) (hShows : Shows e m) (hNone : m k = none) (j : Nat) (v : V) :
    Once (upd e j (some (k, v))) := by
  intro a b k' x y ha hb
  by_cases haj : a = j
  · by_cases hbj : b = j
    · rw [haj, hbj]
    · rw [haj, upd_self, Option.some.injEq, Prod.mk.injEq] at ha
      rw [upd_of_ne hbj, ← ha.1] at hb
      exact absurd hb (hShows.absent hNone b y)
  · rw [upd_of_ne haj] at ha
    by_cases hbj : b = j
    · rw [hbj, upd_self, Option.some.injEq, Prod.mk.injEq] at hb
      rw [← hb.1] at ha
      exact absurd ha (hShows.absent hNone a x)
    · rw [upd_of_ne hbj] at hb
      exact h a b k' x y ha hb

theorem Once.clear (h : Once e) (j : Nat) : Once (upd e j none) := by
  intro a b k' x y ha hb
  have hne : ∀ {a x}, upd e j none a = some (k', x) → a ≠ j := by
    rintro a x ha rfl
    rw [upd_self] at ha
    exact nomatch ha
  rw [upd_of_ne (hne ha)] at ha
  rw [upd_of_ne (hne hb)] at hb
  exact h a b k' x y ha hb

variable [DecidableEq K]

/-- A new key in an empty slot. -/
theorem Shows.put (h : Shows e m) (hNone : m k = none) (hFree : e j = none) (v : V) :
    Shows (upd e j (some (k, v))) (upd m k (some v)) := by
  intro k' x
  by_cases hk : k' = k
  · rw [hk, upd_self, Option.some.injEq]
    constructor
    · rintro rfl
      exact ⟨j, upd_self ..⟩
    · rintro ⟨a, ha⟩
      by_cases haj : a = j
      · rw [haj, upd_self, Option.some.injEq, Prod.mk.injEq] at ha
        exact ha.2
      · rw [upd_of_ne haj] at ha
        exact absurd ha (h.absent hNone a x)
  · rw [upd_of_ne hk, h k' x]
    refine exists_congr fun a => ?_
    by_cases haj : a = j
    · rw [haj, upd_self, hFree, Option.some.injEq, Prod.mk.injEq]
      exact ⟨nofun, fun hEq => absurd hEq.1.symm hk⟩
    · rw [upd_of_ne haj]

/-- The slot of a key is emptied. -/
theorem Shows.clear (h : Shows e m) (hOnce : Once e) (hj : e j = some (k, v)) : Shows (upd e j none) (upd m k none) := by
  intro k' x
  by_cases hk : k' = k
  · rw [hk, upd_self]
    refine ⟨nofun, fun ⟨a, ha⟩ => ?_⟩
    by_cases haj : a = j
    · rw [haj, upd_self] at ha
      exact nomatch ha
    · rw [upd_of_ne haj] at ha
      exact absurd (hOnce a j k x v ha hj) haj
  · rw [upd_of_ne hk, h k' x]
    refine exists_congr fun a => ?_
    by_cases haj : a = j
    · rw [haj, upd_self, hj, Option.some.injEq, Prod.mk.injEq]
      exact ⟨fun hEq => absurd hEq.1.symm hk, nofun⟩
    · rw [upd_of_ne haj]

end Slots
