import Xv6.Sh.Model

/-!
# xv6 — the tokens of a command line

The tokens that `gettoken` cuts a string into, and what `peek`, which looks at characters, and
`gettoken` do to the tokens that are left (`wp_peek`, `wp_gettoken`). What is proved about the
parsers uses these two rules only.
-/

namespace Xv6.Sh

open Hoare

/-- At most `fuel` tokens of `s`. -/
def tokensUpTo (es : Nat) : (fuel : Nat) → (s : List UInt8) → List Token
  | 0, _ => []
  | fuel + 1, s =>
    match lex es s with
    | (none, _) => []
    | (some tok, s') => tok :: tokensUpTo es fuel s'

/-- The tokens of what is left of a string, as cut by `gettoken`; each takes at least a character. -/
def tokens (es : Nat) (s : List UInt8) : List Token := tokensUpTo es s.length s

theorem skip_length (s : List UInt8) : (skip s).length ≤ s.length :=
  (List.dropWhile_suffix _).length_le

/-- The character that a token other than a word starts with. -/
def Token.lead : Token → Option UInt8
  | .bar => some (ch '|')
  | .lpar => some (ch '(')
  | .rpar => some (ch ')')
  | .semi => some (ch ';')
  | .amp => some (ch '&')
  | .lt => some (ch '<')
  | .gt => some (ch '>')
  | .gtgt => some (ch '>')
  | .word _ _ => none

/-- What `lexAt` finds at the character `c`. -/
structure LexSpec (es : Nat) (c : UInt8) (rest : List UInt8) (tok : Token) (s' : List UInt8) : Prop where
  shorter : s'.length < rest.length + 1
  lead    : tok.lead = some c ∨ tok.lead = none ∧ c ∉ symbols
  pointer : ∀ q eq, tok = .word q eq → q = es - (rest.length + 1) ∧ eq = es - s'.length

theorem lexAt_spec (es : Nat) {c : UInt8} (rest : List UInt8) (hc : whitespace.contains c = false) :
    ∃ tok s', lexAt es (c :: rest) = (some tok, s') ∧ LexSpec es c rest tok s' := by
  rw [lexAt]
  by_cases h₁ : c = ch '|'
  · rw [if_pos h₁]
    exact ⟨.bar, rest, rfl, Nat.lt_succ_self _, .inl (h₁ ▸ rfl), nofun⟩
  by_cases h₂ : c = ch '('
  · rw [if_neg h₁, if_pos h₂]
    exact ⟨.lpar, rest, rfl, Nat.lt_succ_self _, .inl (h₂ ▸ rfl), nofun⟩
  by_cases h₃ : c = ch ')'
  · rw [if_neg h₁, if_neg h₂, if_pos h₃]
    exact ⟨.rpar, rest, rfl, Nat.lt_succ_self _, .inl (h₃ ▸ rfl), nofun⟩
  by_cases h₄ : c = ch ';'
  · rw [if_neg h₁, if_neg h₂, if_neg h₃, if_pos h₄]
    exact ⟨.semi, rest, rfl, Nat.lt_succ_self _, .inl (h₄ ▸ rfl), nofun⟩
  by_cases h₅ : c = ch '&'
  · rw [if_neg h₁, if_neg h₂, if_neg h₃, if_neg h₄, if_pos h₅]
    exact ⟨.amp, rest, rfl, Nat.lt_succ_self _, .inl (h₅ ▸ rfl), nofun⟩
  by_cases h₆ : c = ch '<'
  · rw [if_neg h₁, if_neg h₂, if_neg h₃, if_neg h₄, if_neg h₅, if_pos h₆]
    exact ⟨.lt, rest, rfl, Nat.lt_succ_self _, .inl (h₆ ▸ rfl), nofun⟩
  by_cases h₇ : c = ch '>'
  · rw [if_neg h₁, if_neg h₂, if_neg h₃, if_neg h₄, if_neg h₅, if_neg h₆, if_pos h₇]
    split
    · refine ⟨.gtgt, rest.tail, rfl, ?_, .inl (h₇ ▸ rfl), nofun⟩
      rw [List.length_tail]
      omega
    · exact ⟨.gt, rest, rfl, Nat.lt_succ_self _, .inl (h₇ ▸ rfl), nofun⟩
  · rw [if_neg h₁, if_neg h₂, if_neg h₃, if_neg h₄, if_neg h₅, if_neg h₆, if_neg h₇]
    have hSym : c ∉ symbols := by simp [symbols, h₁, h₂, h₃, h₄, h₅, h₆, h₇]
    have hWord : inWord c = true := by
      rw [inWord, hc]
      simpa using hSym
    refine ⟨_, _, rfl, ?_, .inr ⟨rfl, hSym⟩, fun q eq hTok => ?_⟩
    · rw [List.dropWhile_cons_of_pos hWord]
      exact Nat.lt_succ_of_le (List.dropWhile_suffix _).length_le
    · cases hTok
      exact ⟨rfl, rfl⟩

theorem head_skip {s rest : List UInt8} {c : UInt8} (h : skip s = c :: rest) :
    whitespace.contains c = false := by
  have hFirst := List.head?_dropWhile_not (fun c => whitespace.contains c) s
  rw [← skip, h] at hFirst
  simpa using hFirst

/-- The blanks after a token are skipped with it. -/
theorem lex_cons (es : Nat) {s rest : List UInt8} {c : UInt8} (h : skip s = c :: rest) :
    ∃ tok s', lex es s = (some tok, skip s') ∧ LexSpec es c rest tok s' := by
  obtain ⟨tok, s', hLex, hSpec⟩ := lexAt_spec es rest (head_skip h)
  exact ⟨tok, s', by rw [lex, h, hLex], hSpec⟩

theorem lex_nil {es : Nat} {s : List UInt8} (h : skip s = []) : lex es s = (none, []) := by
  rw [lex, h]
  rfl

theorem lex_length {es : Nat} {s s' : List UInt8} {tok : Token} (h : lex es s = (some tok, s')) :
    s'.length < s.length := by
  cases hs : skip s with
  | nil =>
    rw [lex_nil hs] at h
    cases h
  | cons c rest =>
    obtain ⟨tok', s'', hLex, hSpec⟩ := lex_cons es hs
    rw [hLex] at h
    cases h
    have hSkip := skip_length s
    rw [hs, List.length_cons] at hSkip
    have := skip_length s''
    have := hSpec.shorter
    omega

theorem tokensUpTo_eq {es fuel fuel' : Nat} {s : List UInt8} (h : s.length ≤ fuel)
    (h' : s.length ≤ fuel') : tokensUpTo es fuel s = tokensUpTo es fuel' s := by
  have hNil : ∀ fuel, tokensUpTo es fuel [] = [] := fun fuel => by
    cases fuel with
    | zero | succ => rfl
  induction fuel generalizing s fuel' with
  | zero =>
    obtain rfl : s = [] := List.eq_nil_of_length_eq_zero (by omega)
    rw [hNil, hNil]
  | succ fuel ih =>
    cases fuel' with
    | zero =>
      obtain rfl : s = [] := List.eq_nil_of_length_eq_zero (by omega)
      rw [hNil, hNil]
    | succ fuel' =>
      rw [tokensUpTo, tokensUpTo]
      split
      · rfl
      · rename_i tok s' hLex
        have hLess := lex_length hLex
        exact congrArg _ (ih (by omega) (by omega))

variable {es : Nat} {s s' : List UInt8} {tok : Token}

theorem tokens_none (h : skip s = []) : tokens es s = [] := by
  cases s with
  | nil => rfl
  | cons c rest => rw [tokens, List.length_cons, tokensUpTo, lex_nil h]

theorem tokens_some (h : lex es s = (some tok, s')) : tokens es s = tok :: tokens es s' := by
  have hLess := lex_length h
  cases s with
  | nil => exact absurd hLess (Nat.not_lt_zero _)
  | cons c rest =>
    rw [tokens, List.length_cons, tokensUpTo, h, tokens]
    simp only [List.cons.injEq, true_and]
    exact tokensUpTo_eq (Nat.lt_succ_iff.mp hLess) (Nat.le_refl _)

@[simp] theorem skip_skip (s : List UInt8) : skip (skip s) = skip s := by
  cases hs : skip s with
  | nil => rfl
  | cons c rest => rw [skip, List.dropWhile_cons_of_neg (by rw [head_skip hs]; decide)]

theorem tokens_eq_nil : tokens es s = [] ↔ skip s = [] := by
  refine ⟨fun hNil => ?_, tokens_none⟩
  cases hs : skip s with
  | nil => rfl
  | cons c rest =>
    obtain ⟨tok, s', hLex, -⟩ := lex_cons es hs
    rw [tokens_some hLex] at hNil
    cases hNil

@[simp] theorem tokens_skip (s : List UInt8) : tokens es (skip s) = tokens es s := by
  have hLex : lex es (skip s) = lex es s := by rw [lex, lex, skip_skip]
  cases h : lex es s with
  | mk tok? s' =>
    cases tok? with
    | none =>
      have hNil : skip s = [] := by
        cases hs : skip s with
        | nil => rfl
        | cons c rest =>
          obtain ⟨tok, s', hSome, -⟩ := lex_cons es hs
          rw [h] at hSome
          cases hSome
      rw [tokens_none hNil, tokens_none (by rw [skip_skip, hNil])]
    | some tok => rw [tokens_some h, tokens_some (hLex.trans h)]

/-! ## peek and gettoken on tokens -/

/-- Do the tokens start with a character of `l`? -/
def starts (l : List UInt8) (ts : List Token) : Bool := ts.head?.any fun tok => tok.lead.any l.contains

@[simp] theorem starts_nil (l : List UInt8) : starts l [] = false := rfl

@[simp] theorem starts_cons (l : List UInt8) (tok : Token) (ts : List Token) :
    starts l (tok :: ts) = tok.lead.any l.contains := rfl

variable {E : Panic → Prop}

/-- `peek` leaves the tokens as they are. -/
theorem wp_peek (es : Nat) {l : List UInt8} {Q : Bool → List UInt8 → Prop} (hl : l.all symbols.contains = true)
    (h : ∀ s', tokens es s' = tokens es s → Q (starts l (tokens es s)) s') : wp E (peek l) Q s := by
  have hTest : (skip s).head?.any (fun c => l.contains c) = starts l (tokens es s) := by
    cases hs : skip s with
    | nil => rw [tokens_none hs]; rfl
    | cons c rest =>
      obtain ⟨tok, s', hLex, hSpec⟩ := lex_cons es hs
      rw [tokens_some hLex, starts_cons]
      rcases hSpec.lead with hLead | ⟨hLead, hSym⟩
      · rw [hLead]
        rfl
      · rw [hLead]
        have hNot : c ∉ l := fun hMem => hSym (List.contains_iff_mem.mp (List.all_eq_true.mp hl c hMem))
        simpa using hNot
  rw [peek, wp_bind, wp_get, wp_bind, wp_set, wp_pure, hTest]
  exact h _ (tokens_skip s)

theorem wp_gettoken {Q : Option Token → List UInt8 → Prop}
    (hNone : tokens es s = [] → ∀ s', tokens es s' = [] → Q none s')
    (hSome : ∀ tok s', tokens es s = tok :: tokens es s' → Q (some tok) s') :
    wp E (gettoken es) Q s := by
  rw [gettoken, wp_bind, wp_get, wp_bind, wp_set, wp_pure]
  cases h : lex es s with
  | mk tok? s' =>
    cases tok? with
    | none =>
      cases hs : skip s with
      | nil =>
        rw [lex_nil hs] at h
        cases h
        exact hNone (tokens_none hs) [] rfl
      | cons c rest =>
        obtain ⟨tok, s', hLex, -⟩ := lex_cons es hs
        rw [h] at hLex
        cases hLex
    | some tok => exact hSome tok s' (tokens_some h)

/-- The next token is `tok`. -/
theorem wp_gettoken_cons {Q : Option Token → List UInt8 → Prop} {ts : List Token}
    (hs : tokens es s = tok :: ts) (h : ∀ s', tokens es s' = ts → Q (some tok) s') :
    wp E (gettoken es) Q s := by
  refine wp_gettoken (fun hNil => ?_) fun tok' s' hTok => ?_
  · rw [hs] at hNil
    cases hNil
  · rw [hs] at hTok
    cases hTok
    exact h s' rfl

end Xv6.Sh
