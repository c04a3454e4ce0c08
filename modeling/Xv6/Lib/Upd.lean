import Mathlib.Algebra.BigOperators.Group.Finset.Basic

/-!
# Functions changed at one place

`upd f a v` is `Function.update f a v` without the cast a dependent update needs, so that a program
whose state is made of functions can be run by evaluating terms.
-/

variable {α β : Type}

theorem of_none_eq_some {a : α} {P : Prop} (h : none = some a) : P := by
  cases h

variable [DecidableEq α]

def upd (f : α → β) (a : α) (v : β) : α → β := fun x => if x = a then v else f x

theorem upd_apply (f : α → β) (a : α) (v : β) (x : α) : upd f a v x = if x = a then v else f x :=
  rfl

@[simp] theorem upd_self (f : α → β) (a : α) (v : β) : upd f a v a = v := by
  simp [upd]

@[simp] theorem upd_of_ne {f : α → β} {a x : α} {v : β} (h : x ≠ a) : upd f a v x = f x := by
  simp [upd, h]

@[simp] theorem upd_upd (f : α → β) (a : α) (v w : β) : upd (upd f a v) a w = upd f a w := by
  funext x
  simp only [upd]
  split <;> rfl

@[simp] theorem upd_eta (f : α → β) (a : α) : upd f a (f a) = f := by
  funext x
  simp only [upd]
  split
  · rename_i h
    rw [h]
  · rfl

theorem comp_upd {γ : Type} (g : β → γ) (f : α → β) (a : α) (v : β) :
    (fun x => g (upd f a v x)) = upd (fun x => g (f x)) a (g v) := by
  funext x
  simp only [upd]
  split <;> rfl

theorem upd_some_eq_some {f : α → Option β} {a x : α} {v w : β} :
    upd f a (some v) x = some w ↔ x = a ∧ w = v ∨ x ≠ a ∧ f x = some w := by
  by_cases h : x = a <;> simp [h, eq_comm]

theorem upd_none_eq_some {f : α → Option β} {a x : α} {w : β} :
    upd f a none x = some w ↔ x ≠ a ∧ f x = some w := by
  by_cases h : x = a <;> simp [h]

theorem upd_comm {f : α → β} {a b : α} {v w : β} (h : a ≠ b) :
    upd (upd f a v) b w = upd (upd f b w) a v := by
  funext x
  simp only [upd]
  split
  · rename_i hb
    rw [if_neg (fun ha => h (ha.symm.trans hb))]
  · rfl

/-- A sum over a finite set in which one term changes. -/
theorem sum_upd {γ : Type} [AddCommMonoid γ] {s : Finset α} {a : α} (ha : a ∈ s) (f : α → β)
    (v : β) (F : α → β → γ) :
    (∑ x ∈ s, F x (upd f a v x)) + F a (f a) = (∑ x ∈ s, F x (f x)) + F a v := by
  rw [← Finset.sum_erase_add s _ ha, ← Finset.sum_erase_add s (fun x => F x (f x)) ha]
  have hSame : ∑ x ∈ s.erase a, F x (upd f a v x) = ∑ x ∈ s.erase a, F x (f x) :=
    Finset.sum_congr rfl fun x hx => by rw [upd_of_ne (Finset.ne_of_mem_erase hx)]
  rw [hSame, upd_self, add_assoc, add_assoc, add_comm (F a v)]
