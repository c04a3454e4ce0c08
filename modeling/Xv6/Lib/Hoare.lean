import Mathlib.Init

/-!
# Programs over a state that may fail

A program is a state transformer with failures, `StateT σ (Except ε)`. `wp E m Q s` says that
when `m` runs from `s` it either returns and its result and final state satisfy `Q`, or fails
with an error that satisfies `E`: with `E` false everywhere this is total correctness. There is
one rule for each way programs are put together, so that a proof about a program follows its
text: the rule for `bind`, then the specification of the call, then the rest.

`zoom` runs a program on a part of a larger state; whatever it proves about the part, the rest of
the state is unchanged by construction. `Frames` says of a program on the whole state that it leaves a part alone.
-/

namespace Hoare

variable {σ τ ε δ α β : Type}

abbrev Prog (σ ε α : Type) := StateT σ (Except ε) α

/-- `m` returns with `Q`, or fails with `E`. -/
def wp (E : ε → Prop) (m : Prog σ ε α) (Q : α → σ → Prop) (s : σ) : Prop :=
  match m s with
  | .ok (a, s') => Q a s'
  | .error e => E e

variable {E E' : ε → Prop} {m : Prog σ ε α} {f : α → Prog σ ε β} {s : σ}

theorem wp.mono {Q Q' : α → σ → Prop} (h : wp E m Q s) (hQ : ∀ a s', Q a s' → Q' a s') :
    wp E m Q' s := by
  unfold wp at *
  split at h
  · exact hQ _ _ h
  · exact h

theorem wp.weaken {Q : α → σ → Prop} (h : wp E m Q s) (hE : ∀ e, E e → E' e) :
    wp E' m Q s := by
  unfold wp at *
  split at h
  · exact h
  · exact hE _ h

theorem wp.ok {Q : α → σ → Prop} {a : α} {s' : σ} (h : wp E m Q s) (hm : m s = .ok (a, s')) :
    Q a s' := by
  rwa [wp, hm] at h

theorem wp.error {Q : α → σ → Prop} {e : ε} (h : wp E m Q s) (hm : m s = .error e) : E e := by
  rwa [wp, hm] at h

theorem wp_of_ok {Q : α → σ → Prop} {a : α} {s' : σ} (hm : m s = .ok (a, s')) (h : Q a s') : wp E m Q s := by
  rwa [wp, hm]

/-- A program that cannot fail returns. -/
theorem wp.total {Q : α → σ → Prop} (h : wp (fun _ => False) m Q s) : ∃ a s', m s = .ok (a, s') ∧ Q a s' := by
  unfold wp at h
  cases hm : m s with
  | ok p =>
    rw [hm] at h
    exact ⟨p.1, p.2, rfl, h⟩
  | error e =>
    rw [hm] at h
    exact h.elim

/-- What is proved of every successful run holds of the runs of a stronger specification. -/
theorem wp.and {Q Q' : α → σ → Prop} (h : wp E m Q s) (h' : wp (fun _ => True) m Q' s) :
    wp E m (fun a s' => Q a s' ∧ Q' a s') s := by
  unfold wp at *
  cases hm : m s with
  | ok p =>
    rw [hm] at h h'
    exact ⟨h, h'⟩
  | error e =>
    rw [hm] at h
    exact h

/-- With any failure and any result admitted there is nothing to prove. -/
theorem wp_true : wp (fun _ => True) m (fun _ _ => True) s := by
  unfold wp
  split
  · trivial
  · trivial

@[simp] theorem wp_pure {a : α} {Q : α → σ → Prop} :
    wp E (pure a : Prog σ ε α) Q s ↔ Q a s :=
  Iff.rfl

@[simp] theorem wp_bind {Q : β → σ → Prop} :
    wp E (m >>= f) Q s ↔ wp E m (fun a s' => wp E (f a) Q s') s := by
  have hBind : (m >>= f) s = (m s >>= fun p => f p.1 p.2) := rfl
  unfold wp
  rw [hBind]
  cases m s with
  | error | ok => exact Iff.rfl

@[simp] theorem wp_map {g : α → β} {Q : β → σ → Prop} :
    wp E (g <$> m) Q s ↔ wp E m (fun a s' => Q (g a) s') s := by
  have hMap : (g <$> m) = (m >>= fun a => pure (g a)) := (bind_pure_comp g m).symm
  rw [hMap, wp_bind]
  exact Iff.rfl

@[simp] theorem wp_throw {e : ε} {Q : α → σ → Prop} :
    wp E (throw e : Prog σ ε α) Q s ↔ E e :=
  Iff.rfl

@[simp] theorem wp_get {Q : σ → σ → Prop} : wp E (get : Prog σ ε σ) Q s ↔ Q s s :=
  Iff.rfl

@[simp] theorem wp_set {t : σ} {Q : PUnit → σ → Prop} :
    wp E (set t : Prog σ ε PUnit) Q s ↔ Q ⟨⟩ t :=
  Iff.rfl

@[simp] theorem wp_modify {g : σ → σ} {Q : PUnit → σ → Prop} :
    wp E (modify g : Prog σ ε PUnit) Q s ↔ Q ⟨⟩ (g s) :=
  Iff.rfl

theorem wp_ite {c : Prop} [Decidable c] {m' : Prog σ ε α} {Q : α → σ → Prop} :
    wp E (if c then m else m') Q s ↔ (c → wp E m Q s) ∧ (¬ c → wp E m' Q s) := by
  by_cases hc : c <;> simp [hc]

/-- Run `m` if `c` holds. -/
def when (c : Prop) [Decidable c] (m : Prog σ ε Unit) : Prog σ ε Unit := if c then m else pure ()

theorem wp_when {c : Prop} [Decidable c] {m : Prog σ ε Unit} {Q : Unit → σ → Prop} :
    wp E (when c m) Q s ↔ (c → wp E m Q s) ∧ (¬ c → Q () s) :=
  wp_ite

/-- A loop over a list keeps `I` if each round does; `I` sees the elements still to come. -/
theorem wp_forM {γ : Type} {body : γ → Prog σ ε PUnit} (I : List γ → σ → Prop)
    (hBody : ∀ x xs s, I (x :: xs) s → wp E (body x) (fun _ s' => I xs s') s) (l : List γ)
    {s : σ} (h : I l s) : wp E (l.forM body) (fun _ s' => I [] s') s := by
  induction l generalizing s with
  | nil => exact h
  | cons x xs ih =>
    rw [List.forM_eq_forM, List.forM_cons, wp_bind]
    exact (hBody x xs s h).mono fun _ s' h' => ih h'

/-- Run `m` on the part `get t` of the state `t`; its failure `e` is a failure `err e`. -/
def zoom (get : τ → σ) (put : τ → σ → τ) (err : ε → δ) (m : Prog σ ε α) : Prog τ δ α := fun t =>
  match m (get t) with
  | .ok (a, s) => .ok (a, put t s)
  | .error e => .error (err e)

@[simp] theorem wp_zoom {get : τ → σ} {put : τ → σ → τ} {err : ε → δ} {F : δ → Prop} {t : τ}
    {Q : α → τ → Prop} :
    wp F (zoom get put err m) Q t ↔ wp (fun e => F (err e)) m (fun a s => Q a (put t s)) (get t) := by
  unfold wp zoom
  cases m (get t) with
  | error | ok => exact Iff.rfl

/-- `m` neither reads nor changes the part of the state that `put` replaces. -/
structure Frames {φ : Type} (put : σ → φ → σ) (m : Prog σ ε α) : Prop where
  run : ∀ s x, m (put s x) = (m s).map fun p => (p.1, put p.2 x)

section Frames

variable {φ : Type} {put : σ → φ → σ}

theorem Frames.pure (a : α) : Frames put (Pure.pure a : Prog σ ε α) := ⟨fun _ _ => rfl⟩

theorem Frames.throw (e : ε) : Frames put (MonadExcept.throw e : Prog σ ε α) := ⟨fun _ _ => rfl⟩

theorem Frames.bind (h : Frames put m) (hf : ∀ a, Frames put (f a)) : Frames put (m >>= f) := by
  refine ⟨fun s x => ?_⟩
  show (m (put s x) >>= fun p => f p.1 p.2) = (m s >>= fun p => f p.1 p.2).map _
  rw [h.run]
  cases m s with
  | ok p => exact (hf p.1).run p.2 x
  | error e => rfl

theorem Frames.ite {c : Prop} [Decidable c] {m' : Prog σ ε α} (h : Frames put m) (h' : Frames put m') :
    Frames put (if c then m else m') := by
  split
  · exact h
  · exact h'

theorem Frames.when {c : Prop} [Decidable c] {m : Prog σ ε Unit} (h : Frames put m) : Frames put (when c m) :=
  h.ite (.pure ())

theorem Frames.modify {g : σ → σ} (hg : ∀ s x, g (put s x) = put (g s) x) :
    Frames put (MonadStateOf.modifyGet fun s => (PUnit.unit, g s) : Prog σ ε PUnit) :=
  ⟨fun s x => congrArg (fun t => Except.ok (PUnit.unit, t)) (hg s x)⟩

/-- The state is read, but not this part of it. -/
theorem Frames.get {g : σ → Prog σ ε α} (hg : ∀ s x, g (put s x) = g s) (h : ∀ s, Frames put (g s)) :
    Frames put (MonadState.get >>= g) := by
  refine ⟨fun s x => ?_⟩
  show g (put s x) (put s x) = (g s s).map _
  rw [hg, (h s).run]

/-- What is proved of a state with the part `x₀` holds of those with another. -/
theorem Frames.wp {Q : α → σ → Prop} {x₀ : φ} (h : Frames put m) (hs : put s x₀ = s) (hm : wp E m Q s) (x : φ) :
    Hoare.wp E m (fun a s' => ∃ s₁, Q a s₁ ∧ put s₁ x₀ = s₁ ∧ s' = put s₁ x) (put s x) := by
  have hSame := h.run s x₀
  rw [hs] at hSame
  unfold Hoare.wp at hm ⊢
  rw [h.run]
  cases hRun : m s with
  | ok p =>
    rw [hRun] at hm hSame
    exact ⟨p.2, hm, (congrArg Prod.snd (Except.ok.inj hSame)).symm, rfl⟩
  | error e =>
    rw [hRun] at hm
    exact hm

end Frames

-- from here on programs are taken apart by the rules only
attribute [irreducible] wp

end Hoare
