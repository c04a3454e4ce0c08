import Xv6.Lib.Hoare

/-!
# Programs that note what they do

`Noted σ ω ε α` are programs over a state `σ` that also keep a list of notes `ω`. `Erases t m` says that without its
notes `t` is the program `m`: what is proved about `m` then holds of `t`, and only the notes remain to be followed.
-/

namespace Hoare

variable {σ ω ε α β : Type}

/-- Programs over `σ` with notes. -/
abbrev Noted (σ ω ε α : Type) := Prog (σ × List ω) ε α

/-- A program that has nothing to note. -/
def silent (m : Prog σ ε α) : Noted σ ω ε α := zoom Prod.fst (fun p s => (s, p.2)) id m

def note (w : ω) : Noted σ ω ε Unit := modify fun p => (p.1, p.2 ++ [w])

/-- Without its notes `t` is `m`. -/
structure Erases (t : Noted σ ω ε α) (m : Prog σ ε α) : Prop where
  run : ∀ s l, (t (s, l)).map (fun p => (p.1, p.2.1)) = m s

variable {E : ε → Prop} {s : σ} {l : List ω} {t : Noted σ ω ε α} {m : Prog σ ε α}

@[simp] theorem wp_silent {Q : α → σ × List ω → Prop} :
    wp E (silent m) Q (s, l) ↔ wp E m (fun a s' => Q a (s', l)) s :=
  wp_zoom

@[simp] theorem wp_note {w : ω} {Q : Unit → σ × List ω → Prop} :
    wp E (note w) Q (s, l) ↔ Q () (s, l ++ [w]) :=
  wp_modify

/-- What holds of a program holds of it with notes. -/
theorem Erases.wp {Q : α → σ → Prop} (h : Erases t m) (hm : wp E m Q s) (l : List ω) :
    Hoare.wp E t (fun a p => Q a p.1) (s, l) := by
  have hs := h.run s l
  unfold Hoare.wp at hm ⊢
  cases ht : t (s, l) with
  | ok | error =>
    rw [ht] at hs
    rwa [← hs] at hm

theorem Erases.silent (m : Prog σ ε α) : Erases (Hoare.silent (ω := ω) m) m := by
  refine ⟨fun s l => ?_⟩
  unfold Hoare.silent zoom
  cases m s with
  | ok | error => rfl

theorem Erases.pure (a : α) : Erases (Pure.pure a : Noted σ ω ε α) (Pure.pure a) := ⟨fun _ _ => rfl⟩

theorem Erases.throw (e : ε) : Erases (MonadExcept.throw e : Noted σ ω ε α) (MonadExcept.throw e) := ⟨fun _ _ => rfl⟩

theorem Erases.bind {f : α → Noted σ ω ε β} {g : α → Prog σ ε β} (h : Erases t m) (hf : ∀ a, Erases (f a) (g a)) :
    Erases (t >>= f) (m >>= g) := by
  refine ⟨fun s l => ?_⟩
  have hs := h.run s l
  show ((t (s, l)) >>= fun p => f p.1 p.2).map _ = (m s >>= fun p => g p.1 p.2)
  rw [← hs]
  cases t (s, l) with
  | ok p => exact (hf p.1).run p.2.1 p.2.2
  | error e => rfl

/-- Something is noted after `m`. -/
theorem Erases.andNote (m : Prog σ ε Unit) (w : ω) : Erases (do Hoare.silent m; note w) m := by
  have hBind := (Erases.silent (ω := ω) m).bind (f := fun _ => note w) (g := fun _ => Pure.pure ()) fun _ => ⟨fun _ _ => rfl⟩
  have hEq : (m >>= fun _ => Pure.pure ()) = m := bind_pure_unit
  rwa [hEq] at hBind

theorem Erases.ite {c : Prop} [Decidable c] {t' : Noted σ ω ε α} {m' : Prog σ ε α} (h : Erases t m) (h' : Erases t' m') :
    Erases (if c then t else t') (if c then m else m') := by
  by_cases hc : c
  · rwa [if_pos hc, if_pos hc]
  · rwa [if_neg hc, if_neg hc]

end Hoare
