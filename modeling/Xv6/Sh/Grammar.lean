import Xv6.Sh.Tokens

/-!
# xv6 — what the shell parses

The grammar of command lines over the tokens that `gettoken` cuts a string into, and that the parser
of `sh.c` is right: it returns a tree exactly for the strings that the grammar derives.

That what is accepted is derivable (`ParsersSound`) and that what is derivable is accepted
(`ParsersComplete`) are both proved by induction on the bound that the parsers carry; it is large enough
for the tokens that are left, so the first part also says that the parsers end. For the second it
matters what may follow a command (`Ends`): a parser stops where its rule does because what follows
cannot be taken.

Results:

* `parsecmd_correct` — `parsecmd` accepts the language of the grammar, with the right trees, and fails
  otherwise with a syntax error; all pointers of the tree lie in the string.
-/

namespace Xv6.Sh

open Hoare

variable {rest ts : List Token} {rs : List Redir} {fuel : Nat} {cmd : Cmd}
  {Q : List Redir → List UInt8 → Prop}

/-! ## Grammar -/

/-- `n` times `&` -/
def Cmd.backs (cmd : Cmd) : Nat → Cmd
  | 0 => cmd
  | n + 1 => Cmd.backs (.back cmd) n

/-- redir* -/
inductive Redirs : List Token → List Redir → Prop where
  | nil : Redirs [] []
  | cons {op : Token} {q eq : Nat} {r : Redir} {ts : List Token} {rs : List Redir}
      (hOp : op.redir q eq = some r) (h : Redirs ts rs) :
      Redirs (op :: .word q eq :: ts) (r :: rs)

/-- (redir | word)* -/
inductive Simple : List Token → List (Nat × Nat) → List Redir → Prop where
  | nil : Simple [] [] []
  | word {q eq : Nat} {ts : List Token} {args : List (Nat × Nat)} {rs : List Redir}
      (h : Simple ts args rs) : Simple (.word q eq :: ts) ((q, eq) :: args) rs
  | redir {op : Token} {q eq : Nat} {r : Redir} {ts : List Token} {args : List (Nat × Nat)}
      {rs : List Redir} (hOp : op.redir q eq = some r) (h : Simple ts args rs) :
      Simple (op :: .word q eq :: ts) args (r :: rs)

mutual

/-- line ::= pipe '&'* [';' line] -/
inductive Line : List Token → Cmd → Prop where
  | last {ts : List Token} {cmd : Cmd} (n : Nat) (h : Pipe ts cmd) :
      Line (ts ++ List.replicate n .amp) (cmd.backs n)
  | list {ts ts' : List Token} {cmd cmd' : Cmd} (n : Nat) (h : Pipe ts cmd) (h' : Line ts' cmd') :
      Line (ts ++ (List.replicate n .amp ++ .semi :: ts')) (.list (cmd.backs n) cmd')

/-- pipe ::= exec ['|' pipe] -/
inductive Pipe : List Token → Cmd → Prop where
  | last {ts : List Token} {cmd : Cmd} (h : Exec ts cmd) : Pipe ts cmd
  | pipe {ts ts' : List Token} {cmd cmd' : Cmd} (h : Exec ts cmd) (h' : Pipe ts' cmd') :
      Pipe (ts ++ .bar :: ts') (.pipe cmd cmd')

/-- exec ::= '(' line ')' redir* | (redir | word)* -/
inductive Exec : List Token → Cmd → Prop where
  | block {ts rts : List Token} {cmd : Cmd} {rs : List Redir} (h : Line ts cmd)
      (hRedirs : Redirs rts rs) : Exec (.lpar :: (ts ++ .rpar :: rts)) (cmd.wrap rs)
  | simple {ts : List Token} {args : List (Nat × Nat)} {rs : List Redir} (h : Simple ts args rs)
      (hArgs : args.length < MAXARGS) : Exec ts ((Cmd.exec args).wrap rs)

end

/-! ## What the parsers accept -/

variable {es : Nat} {s : List UInt8} {tok : Token}

/-- The failures of `parsecmd` that are syntax errors. -/
def SyntaxError (e : Panic) : Prop :=
  e = .unexpected ∨ e = .missingFile ∨ e = .missingParen ∨ e = .tooManyArgs

theorem Simple.append_redirs {rts : List Token} {rs' : List Redir} {args : List (Nat × Nat)}
    (h : Redirs rts rs) (h' : Simple ts args rs') : Simple (rts ++ ts) args (rs ++ rs') := by
  induction h with
  | nil => exact h'
  | cons hOp _ ih => exact .redir hOp ih

theorem wp_parseredirs (hFuel : (tokens es s).length < fuel)
    (h : ∀ rts rs' s', tokens es s = rts ++ tokens es s' → Redirs rts rs' → Q (rs ++ rs') s') :
    wp SyntaxError (parseredirs es fuel rs) Q s := by
  induction fuel generalizing s rs with
  | zero => omega
  | succ fuel ih =>
    rw [parseredirs, wp_bind]
    refine wp_peek es rfl fun s₁ hs₁ => wp_ite.mpr ⟨fun hStart => ?_, fun hStart => ?_⟩
    · rw [wp_bind]
      refine wp_gettoken (fun hNil => ?_) fun tok s₂ hs₂ => ?_
      · rw [← hs₁, hNil] at hStart
        cases hStart
      rw [wp_bind]
      refine wp_gettoken (fun _ _ _ => wp_throw.mpr (.inr (.inl rfl))) fun w s₃ hs₃ => ?_
      cases w with
      | word q eq =>
        have hAll : tokens es s = tok :: .word q eq :: tokens es s₃ := by rw [← hs₁, hs₂, hs₃]
        rw [hAll] at hStart hFuel
        obtain ⟨r, hr⟩ : ∃ r, tok.redir q eq = some r := by
          cases tok <;> first | exact ⟨_, rfl⟩ | cases hStart
        show wp SyntaxError (parseredirs es fuel (rs ++ (tok.redir q eq).toList)) Q s₃
        rw [hr]
        refine ih (by simp only [List.length_cons] at hFuel; omega) fun rts rs' s' hRest hRedirs => ?_
        rw [List.append_assoc]
        exact h (tok :: .word q eq :: rts) (r :: rs') s' (by rw [hAll, hRest]; rfl) (.cons hr hRedirs)
      | _ => exact wp_throw.mpr (.inr (.inl rfl))
    · have hDone := h [] [] s₁ hs₁.symm .nil
      rw [List.append_nil] at hDone
      exact wp_pure.mpr hDone

theorem wp_execLoop {args : List (Nat × Nat)}
    {Q : List (Nat × Nat) × List Redir → List UInt8 → Prop}
    (hFuel : (tokens es s).length < fuel) (hArgs : args.length < MAXARGS)
    (h : ∀ ts args' rs' s', tokens es s = ts ++ tokens es s' → Simple ts args' rs' →
      (args ++ args').length < MAXARGS → Q (args ++ args', rs ++ rs') s') :
    wp SyntaxError (execLoop es fuel args rs) Q s := by
  induction fuel generalizing s args rs with
  | zero => omega
  | succ fuel ih =>
    have hStop : ∀ s', tokens es s' = tokens es s → Q (args, rs) s' := by
      intro s' hs'
      have hDone := h [] [] [] s' hs'.symm .nil (by rwa [List.append_nil])
      rwa [List.append_nil, List.append_nil] at hDone
    rw [execLoop, wp_bind]
    refine wp_peek es rfl fun s₁ hs₁ => wp_ite.mpr ⟨fun _ => ?_, fun _ => ?_⟩
    · exact wp_pure.mpr (hStop s₁ hs₁)
    rw [wp_bind]
    refine wp_gettoken (fun hNil s₂ hs₂ => ?_) fun tok s₂ hs₂ => ?_
    · exact wp_pure.mpr (hStop s₂ (by rw [hs₂, ← hs₁, hNil]))
    rw [hs₁] at hs₂
    cases tok with
    | word q eq =>
      rw [hs₂, List.length_cons] at hFuel
      show wp SyntaxError (when (MAXARGS ≤ args.length) (throw .bounds) >>= fun _ => _) Q s₂
      rw [wp_bind, wp_when]
      refine ⟨fun hBad => absurd hArgs (by omega), fun _ => ?_⟩
      rw [wp_bind, wp_when]
      refine ⟨fun _ => wp_throw.mpr (.inr (.inr (.inr rfl))), fun hMore => ?_⟩
      rw [wp_bind]
      refine wp_parseredirs (by omega) fun rts rs' s₃ hs₃ hRedirs => ?_
      rw [hs₃, List.length_append] at hFuel
      refine ih (by omega) (by rw [List.length_append, List.length_singleton]; omega)
        fun ts args' rs'' s' hs' hSimple hLess => ?_
      rw [List.append_assoc] at hLess ⊢
      rw [List.append_assoc]
      refine h (.word q eq :: (rts ++ ts)) _ _ s' ?_ (.word (.append_redirs hRedirs hSimple)) hLess
      rw [hs₂, hs₃, hs', List.cons_append, List.append_assoc]
    | _ => exact wp_throw.mpr (.inl rfl)

theorem wp_backLoop {Q : Cmd → List UInt8 → Prop} (hFuel : (tokens es s).length < fuel)
    (h : ∀ n s', tokens es s = List.replicate n .amp ++ tokens es s' → Q (cmd.backs n) s') :
    wp SyntaxError (backLoop es fuel cmd) Q s := by
  induction fuel generalizing s cmd with
  | zero => omega
  | succ fuel ih =>
    rw [backLoop, wp_bind]
    refine wp_peek es rfl fun s₁ hs₁ => wp_ite.mpr ⟨fun hStart => ?_, fun _ => ?_⟩
    · rw [wp_bind]
      refine wp_gettoken (fun hNil => ?_) fun tok s₂ hs₂ => ?_
      · rw [← hs₁, hNil] at hStart
        cases hStart
      rw [hs₁] at hs₂
      rw [hs₂] at hStart hFuel
      obtain rfl : tok = .amp := by
        cases tok <;> first | rfl | cases hStart
      refine ih (by rw [List.length_cons] at hFuel; omega) fun n s' hs' => h (n + 1) s' ?_
      rw [hs₂, hs', List.replicate_succ]
      rfl
    · exact wp_pure.mpr (h 0 s₁ hs₁.symm)

/-- `m` takes tokens that `R` derives. -/
def Takes (R : List Token → Cmd → Prop) (es : Nat) (m : P Cmd) (s : List UInt8) : Prop :=
  wp SyntaxError m (fun cmd s' => ∃ ts, tokens es s = ts ++ tokens es s' ∧ R ts cmd) s

/-- The four parsers, which call each other at most four deep for each token. -/
structure ParsersSound (es fuel : Nat) : Prop where
  line  : ∀ s, 4 * (tokens es s).length + 4 ≤ fuel → Takes Line es (parseline es fuel) s
  pipe  : ∀ s, 4 * (tokens es s).length + 3 ≤ fuel → Takes Pipe es (parsepipe es fuel) s
  exec  : ∀ s, 4 * (tokens es s).length + 2 ≤ fuel → Takes Exec es (parseexec es fuel) s
  block : ∀ s, 4 * (tokens es s).length + 1 ≤ fuel → starts [ch '('] (tokens es s) = true →
    Takes Exec es (parseblock es fuel) s

theorem takes_line (ih : ParsersSound es fuel) (hFuel : 4 * (tokens es s).length + 4 ≤ fuel + 1) :
    Takes Line es (parseline es (fuel + 1)) s := by
  rw [Takes, parseline, wp_bind]
  refine (ih.pipe s (by omega)).mono fun cmd s₁ ⟨ts, hs₁, hPipe⟩ => ?_
  rw [hs₁, List.length_append] at hFuel
  rw [wp_bind]
  refine wp_backLoop (by omega) fun n s₂ hs₂ => ?_
  rw [hs₂, List.length_append] at hFuel
  rw [wp_bind]
  refine wp_peek es rfl fun s₃ hs₃ => wp_ite.mpr ⟨fun hStart => ?_, fun _ => ?_⟩
  · rw [wp_bind]
    refine wp_gettoken (fun hNil => ?_) fun tok s₄ hs₄ => ?_
    · rw [← hs₃, hNil] at hStart
      cases hStart
    rw [hs₃] at hs₄
    rw [hs₄] at hStart hFuel
    obtain rfl : tok = .semi := by
      cases tok <;> first | rfl | cases hStart
    rw [List.length_cons] at hFuel
    rw [wp_bind]
    refine (ih.line s₄ (by omega)).mono fun cmd' s₅ ⟨ts', hs₅, hLine⟩ => wp_pure.mpr ⟨_, ?_, .list n hPipe hLine⟩
    rw [hs₁, hs₂, hs₄, hs₅]
    simp
  · refine wp_pure.mpr ⟨_, ?_, .last n hPipe⟩
    rw [hs₁, hs₂, hs₃, List.append_assoc]

theorem takes_pipe (ih : ParsersSound es fuel) (hFuel : 4 * (tokens es s).length + 3 ≤ fuel + 1) :
    Takes Pipe es (parsepipe es (fuel + 1)) s := by
  rw [Takes, parsepipe, wp_bind]
  refine (ih.exec s (by omega)).mono fun cmd s₁ ⟨ts, hs₁, hExec⟩ => ?_
  rw [hs₁, List.length_append] at hFuel
  rw [wp_bind]
  refine wp_peek es rfl fun s₂ hs₂ => wp_ite.mpr ⟨fun hStart => ?_, fun _ => ?_⟩
  · rw [wp_bind]
    refine wp_gettoken (fun hNil => ?_) fun tok s₃ hs₃ => ?_
    · rw [← hs₂, hNil] at hStart
      cases hStart
    rw [hs₂] at hs₃
    rw [hs₃] at hStart hFuel
    obtain rfl : tok = .bar := by
      cases tok <;> first | rfl | cases hStart
    rw [List.length_cons] at hFuel
    rw [wp_bind]
    refine (ih.pipe s₃ (by omega)).mono fun cmd' s₄ ⟨ts', hs₄, hPipe⟩ => wp_pure.mpr ⟨_, ?_, .pipe hExec hPipe⟩
    rw [hs₁, hs₃, hs₄, List.append_assoc]
    rfl
  · exact wp_pure.mpr ⟨ts, by rw [hs₁, hs₂], .last hExec⟩

theorem takes_exec (ih : ParsersSound es fuel) (hFuel : 4 * (tokens es s).length + 2 ≤ fuel + 1) :
    Takes Exec es (parseexec es (fuel + 1)) s := by
  rw [Takes, parseexec, wp_bind]
  refine wp_peek es rfl fun s₁ hs₁ => wp_ite.mpr ⟨fun hStart => ?_, fun _ => ?_⟩
  · rw [← hs₁] at hStart hFuel ⊢
    exact ih.block s₁ (by omega) hStart
  · rw [← hs₁] at hFuel ⊢
    rw [wp_bind]
    refine wp_parseredirs (by omega) fun rts rs s₂ hs₂ hRedirs => ?_
    rw [hs₂, List.length_append] at hFuel
    rw [wp_bind]
    refine wp_execLoop (by omega) (by decide) fun ts args rs' s₃ hs₃ hSimple hArgs => ?_
    rw [List.nil_append] at hArgs
    show wp SyntaxError (when (MAXARGS ≤ args.length) (throw .bounds) >>= fun _ => _) _ s₃
    rw [wp_bind, wp_when]
    refine ⟨fun hBad => absurd hArgs (by omega), fun _ => wp_pure.mpr ⟨rts ++ ts, ?_, ?_⟩⟩
    · rw [hs₂, hs₃, List.append_assoc]
    · exact .simple (.append_redirs hRedirs hSimple) hArgs

theorem takes_block (ih : ParsersSound es fuel) (hFuel : 4 * (tokens es s).length + 1 ≤ fuel + 1)
    (hStart : starts [ch '('] (tokens es s) = true) : Takes Exec es (parseblock es (fuel + 1)) s := by
  rw [Takes, parseblock, wp_bind]
  refine wp_peek es rfl fun s₁ hs₁ => ?_
  rw [wp_bind, wp_when]
  refine ⟨fun hBad => absurd hBad (by simp [hStart]), fun _ => ?_⟩
  rw [wp_bind]
  refine wp_gettoken (fun hNil => ?_) fun tok s₂ hs₂ => ?_
  · rw [← hs₁, hNil] at hStart
    cases hStart
  rw [hs₁] at hs₂
  rw [hs₂] at hStart hFuel
  obtain rfl : tok = .lpar := by
    cases tok <;> first | rfl | cases hStart
  rw [List.length_cons] at hFuel
  rw [wp_bind]
  refine (ih.line s₂ (by omega)).mono fun cmd s₃ ⟨ts, hs₃, hLine⟩ => ?_
  rw [hs₃, List.length_append] at hFuel
  rw [wp_bind]
  refine wp_peek es rfl fun s₄ hs₄ => ?_
  rw [wp_bind, wp_when]
  refine ⟨fun _ => wp_throw.mpr (.inr (.inr (.inl rfl))), fun hClose => ?_⟩
  rw [Bool.not_eq_true, Bool.not_eq_false'] at hClose
  rw [wp_bind]
  refine wp_gettoken (fun hNil => ?_) fun tok s₅ hs₅ => ?_
  · rw [← hs₄, hNil] at hClose
    cases hClose
  rw [hs₄] at hs₅
  rw [hs₅] at hClose hFuel
  obtain rfl : tok = .rpar := by
    cases tok <;> first | rfl | cases hClose
  rw [List.length_cons] at hFuel
  rw [wp_bind]
  refine wp_parseredirs (by omega) fun rts rs s₆ hs₆ hRedirs => wp_pure.mpr ⟨_, ?_, .block hLine hRedirs⟩
  rw [hs₂, hs₃, hs₅, hs₆]
  simp

theorem parsersSound (es fuel : Nat) : ParsersSound es fuel := by
  induction fuel with
  | zero => exact ⟨fun _ h => by omega, fun _ h => by omega, fun _ h => by omega, fun _ h => by omega⟩
  | succ fuel ih =>
    exact ⟨fun _ => takes_line ih, fun _ => takes_pipe ih, fun _ => takes_exec ih, fun _ => takes_block ih⟩

/-! ## What the grammar derives is accepted -/

/-- No more tokens, or a token that starts with a character of `l`. -/
def Ends (l : List UInt8) (rest : List Token) : Prop := rest = [] ∨ starts l rest = true

theorem Ends.not_starts {l l' : List UInt8} (h : Ends l rest)
    (hDisj : l.all (fun c => !l'.contains c) = true) : starts l' rest = false := by
  rcases h with rfl | hStart
  · rfl
  · cases rest with
    | nil => rfl
    | cons tok rest =>
      rw [starts_cons] at hStart ⊢
      cases hLead : tok.lead with
      | none => rfl
      | some c =>
        rw [hLead] at hStart
        have hc : c ∈ l := by simpa using hStart
        simpa using List.all_eq_true.mp hDisj c hc

theorem Ends.mono {l l' : List UInt8} (h : Ends l rest) (hSub : l.all l'.contains = true) :
    Ends l' rest := by
  rcases h with rfl | hStart
  · exact .inl rfl
  · cases rest with
    | nil => exact .inl rfl
    | cons tok rest =>
      refine .inr ?_
      rw [starts_cons] at hStart ⊢
      cases hLead : tok.lead with
      | none =>
        rw [hLead] at hStart
        cases hStart
      | some c =>
        rw [hLead] at hStart
        have hc : c ∈ l := by simpa using hStart
        exact List.all_eq_true.mp hSub c hc

/-- The parser returns. -/
abbrev Never : Panic → Prop := fun _ => False

theorem starts_redir {op : Token} {q eq : Nat} {r : Redir} (h : op.redir q eq = some r)
    (ts : List Token) : starts [ch '<', ch '>'] (op :: ts) = true := by
  cases op <;> first | rfl | cases h

/-- One redirection is taken. -/
theorem redirs_step {op : Token} {q eq : Nat} {r : Redir} (hOp : op.redir q eq = some r)
    (hs : tokens es s = op :: .word q eq :: ts)
    (h : ∀ s', tokens es s' = ts → wp Never (parseredirs es fuel (rs ++ [r])) Q s') :
    wp Never (parseredirs es (fuel + 1) rs) Q s := by
  rw [parseredirs, wp_bind]
  refine wp_peek es rfl fun s₁ hs₁ => ?_
  rw [hs] at hs₁ ⊢
  rw [if_pos (starts_redir hOp _), wp_bind]
  refine wp_gettoken_cons hs₁ fun s₂ hs₂ => ?_
  rw [wp_bind]
  refine wp_gettoken_cons hs₂ fun s₃ hs₃ => ?_
  show wp Never (parseredirs es fuel (rs ++ (op.redir q eq).toList)) Q s₃
  rw [hOp]
  exact h s₃ hs₃

/-- There is no redirection. -/
theorem redirs_done (hs : starts [ch '<', ch '>'] (tokens es s) = false)
    (h : ∀ s', tokens es s' = tokens es s → Q rs s') :
    wp Never (parseredirs es (fuel + 1) rs) Q s := by
  rw [parseredirs, wp_bind]
  refine wp_peek es rfl fun s₁ hs₁ => ?_
  rw [hs, if_neg (by decide)]
  exact wp_pure.mpr (h s₁ hs₁)

theorem complete_redirs {rts : List Token} {rs' : List Redir} (hRedirs : Redirs rts rs') (hs : tokens es s = rts ++ rest)
    (hRest : starts [ch '<', ch '>'] rest = false) (hFuel : rts.length < fuel)
    (h : ∀ s', tokens es s' = rest → Q (rs ++ rs') s') : wp Never (parseredirs es fuel rs) Q s := by
  obtain ⟨fuel, rfl⟩ : ∃ k, fuel = k + 1 := ⟨fuel - 1, by omega⟩
  induction hRedirs generalizing s rs fuel with
  | nil =>
    rw [List.append_nil] at h
    exact redirs_done (by rw [hs]; exact hRest) fun s' hs' => h s' (hs'.trans hs)
  | cons hOp _ ih =>
    simp only [List.length_cons] at hFuel
    refine redirs_step hOp hs fun s' hs' => ?_
    obtain ⟨fuel, rfl⟩ : ∃ k, fuel = k + 1 := ⟨fuel - 1, by omega⟩
    refine ih hs' (fun s'' hs'' => ?_) _ (by omega)
    rw [List.append_assoc]
    exact h s'' hs''

/-- The characters at which a simple command ends. -/
def execEnd : List UInt8 := [ch '|', ch ')', ch '&', ch ';']

theorem complete_simple {fuel' : Nat} {args args' : List (Nat × Nat)}
    {rs' : List Redir} {Q : List (Nat × Nat) × List Redir → List UInt8 → Prop}
    (hSimple : Simple ts args' rs') (hs : tokens es s = ts ++ rest) (hRest : Ends execEnd rest)
    (hArgs : (args ++ args').length < MAXARGS) (hFuel : ts.length < fuel) (hFuel' : ts.length < fuel')
    (h : ∀ s', tokens es s' = rest → Q (args ++ args', rs ++ rs') s') :
    wp Never (parseredirs es fuel rs >>= fun rs => execLoop es fuel' args rs) Q s := by
  obtain ⟨fuel, rfl⟩ : ∃ k, fuel = k + 1 := ⟨fuel - 1, by omega⟩
  obtain ⟨fuel', rfl⟩ : ∃ k, fuel' = k + 1 := ⟨fuel' - 1, by omega⟩
  induction hSimple generalizing s args rs fuel fuel' with
  | nil =>
    rw [List.append_nil] at h
    rw [wp_bind]
    refine redirs_done (by rw [hs]; exact hRest.not_starts rfl) fun s₁ hs₁ => ?_
    rw [execLoop, wp_bind]
    refine wp_peek es rfl fun s₂ hs₂ => ?_
    rw [hs₁, hs] at hs₂ ⊢
    rw [List.append_nil] at h
    rcases hRest with hNil | hStart
    · rw [List.nil_append, hNil] at hs₂ ⊢
      rw [if_neg (by decide), wp_bind]
      refine wp_gettoken (fun _ s₃ hs₃ => wp_pure.mpr (h s₃ (by rw [hs₃, hNil]))) fun tok s₃ hs₃ => ?_
      rw [hs₂] at hs₃
      cases hs₃
    · rw [List.nil_append, show [ch '|', ch ')', ch '&', ch ';'] = execEnd from rfl, hStart,
        if_pos rfl]
      exact wp_pure.mpr (h s₂ hs₂)
  | @word q eq ts args' rs' _ ih =>
    rw [List.length_cons] at hFuel hFuel'
    rw [wp_bind]
    refine redirs_done (by rw [hs]; rfl) fun s₁ hs₁ => ?_
    rw [execLoop, wp_bind]
    refine wp_peek es rfl fun s₂ hs₂ => ?_
    have hWord : starts [ch '|', ch ')', ch '&', ch ';'] (.word q eq :: ts ++ rest) = false := rfl
    rw [hs₁, hs] at hs₂ ⊢
    rw [hWord, if_neg (by decide), wp_bind]
    refine wp_gettoken_cons hs₂ fun s₃ hs₃ => ?_
    show wp Never (when (MAXARGS ≤ args.length) (throw .bounds) >>= fun _ => _) Q s₃
    rw [List.length_append, List.length_cons] at hArgs
    rw [wp_bind, wp_when]
    refine ⟨fun hBad => by omega, fun _ => ?_⟩
    rw [wp_bind, wp_when]
    refine ⟨fun hBad => by omega, fun _ => ?_⟩
    obtain ⟨fuel', rfl⟩ : ∃ k, fuel' = k + 1 := ⟨fuel' - 1, by omega⟩
    refine ih hs₃ ?_ (fun s' hs' => ?_) _ (by omega) _ (by omega)
    · simp only [List.length_append, List.length_singleton]
      omega
    · rw [List.append_assoc]
      exact h s' hs'
  | redir hOp _ ih =>
    simp only [List.length_cons] at hFuel hFuel'
    rw [wp_bind]
    refine redirs_step hOp hs fun s₁ hs₁ => ?_
    obtain ⟨fuel, rfl⟩ : ∃ k, fuel = k + 1 := ⟨fuel - 1, by omega⟩
    refine wp_bind.mp (ih hs₁ hArgs (fun s' hs' => ?_) _ (by omega) _ (by omega))
    rw [List.append_assoc]
    exact h s' hs'

theorem complete_backs {n : Nat} {Q : Cmd → List UInt8 → Prop}
    (hs : tokens es s = List.replicate n .amp ++ rest) (hRest : starts [ch '&'] rest = false)
    (hFuel : n < fuel) (h : ∀ s', tokens es s' = rest → Q (cmd.backs n) s') :
    wp Never (backLoop es fuel cmd) Q s := by
  obtain ⟨fuel, rfl⟩ : ∃ k, fuel = k + 1 := ⟨fuel - 1, by omega⟩
  induction n generalizing s cmd fuel with
  | zero =>
    rw [backLoop, wp_bind]
    refine wp_peek es rfl fun s₁ hs₁ => ?_
    rw [hs] at hs₁ ⊢
    rw [List.replicate_zero, List.nil_append, hRest, if_neg (by decide)]
    exact wp_pure.mpr (h s₁ hs₁)
  | succ n ih =>
    rw [List.replicate_succ] at hs
    have hAmp : starts [ch '&'] (.amp :: List.replicate n .amp ++ rest) = true := rfl
    rw [backLoop, wp_bind]
    refine wp_peek es rfl fun s₁ hs₁ => ?_
    rw [hs] at hs₁ ⊢
    rw [hAmp, if_pos rfl, wp_bind]
    refine wp_gettoken_cons hs₁ fun s₂ hs₂ => ?_
    obtain ⟨fuel, rfl⟩ : ∃ k, fuel = k + 1 := ⟨fuel - 1, by omega⟩
    exact ih hs₂ h _ (by omega)

/-- `m` returns `cmd` and leaves `rest`. -/
def Returns (es : Nat) (m : P Cmd) (s : List UInt8) (cmd : Cmd) (rest : List Token) : Prop :=
  wp Never m (fun cmd' s' => cmd' = cmd ∧ tokens es s' = rest) s

/-- What can follow a command of each kind. -/
structure ParsersComplete (es fuel : Nat) : Prop where
  line  : ∀ s ts rest cmd, Line ts cmd → tokens es s = ts ++ rest → Ends [ch ')'] rest →
    4 * ts.length + 4 ≤ fuel → Returns es (parseline es fuel) s cmd rest
  pipe  : ∀ s ts rest cmd, Pipe ts cmd → tokens es s = ts ++ rest → Ends [ch ')', ch '&', ch ';'] rest →
    4 * ts.length + 3 ≤ fuel → Returns es (parsepipe es fuel) s cmd rest
  exec  : ∀ s ts rest cmd, Exec ts cmd → tokens es s = ts ++ rest → Ends execEnd rest →
    4 * ts.length + 2 ≤ fuel → Returns es (parseexec es fuel) s cmd rest
  block : ∀ s ts rts rest cmd rs, Line ts cmd → Redirs rts rs →
    tokens es s = .lpar :: (ts ++ .rpar :: rts) ++ rest → Ends execEnd rest →
    4 * (ts.length + rts.length + 2) + 1 ≤ fuel → Returns es (parseblock es fuel) s (cmd.wrap rs) rest

theorem returns_line (ih : ParsersComplete es fuel)
    (hLine : Line ts cmd) (hs : tokens es s = ts ++ rest) (hRest : Ends [ch ')'] rest)
    (hFuel : 4 * ts.length + 4 ≤ fuel + 1) : Returns es (parseline es (fuel + 1)) s cmd rest := by
  rw [Returns, parseline, wp_bind]
  cases hLine with
  | @last ts cmd n hPipe =>
    simp only [List.length_append, List.length_replicate] at hFuel
    rw [List.append_assoc] at hs
    have hEnd : Ends [ch ')', ch '&', ch ';'] (List.replicate n .amp ++ rest) := by
      cases n with
      | zero => exact hRest.mono rfl
      | succ n => exact .inr rfl
    refine (ih.pipe s _ _ _ hPipe hs hEnd (by omega)).mono fun cmd' s₁ ⟨hCmd, hs₁⟩ => ?_
    rw [hCmd, wp_bind]
    refine complete_backs hs₁ (hRest.not_starts rfl) (by omega) fun s₂ hs₂ => ?_
    rw [wp_bind]
    refine wp_peek es rfl fun s₃ hs₃ => ?_
    rw [hs₂] at hs₃ ⊢
    rw [hRest.not_starts rfl, if_neg (by decide)]
    exact wp_pure.mpr ⟨rfl, hs₃⟩
  | @list ts ts' cmd cmd' n hPipe hLine' =>
    simp only [List.length_append, List.length_replicate, List.length_cons] at hFuel
    rw [List.append_assoc, List.append_assoc] at hs
    have hEnd : Ends [ch ')', ch '&', ch ';'] (List.replicate n .amp ++ (.semi :: ts' ++ rest)) := by
      cases n with
      | zero | succ => exact .inr rfl
    refine (ih.pipe s _ _ _ hPipe hs hEnd (by omega)).mono fun c s₁ ⟨hCmd, hs₁⟩ => ?_
    rw [hCmd, wp_bind]
    refine complete_backs hs₁ rfl (by omega) fun s₂ hs₂ => ?_
    rw [wp_bind]
    refine wp_peek es rfl fun s₃ hs₃ => ?_
    have hSemi : starts [ch ';'] (.semi :: ts' ++ rest) = true := rfl
    rw [hs₂] at hs₃ ⊢
    rw [hSemi, if_pos rfl, wp_bind]
    refine wp_gettoken_cons hs₃ fun s₄ hs₄ => ?_
    rw [wp_bind]
    refine (ih.line s₄ _ _ _ hLine' hs₄ hRest (by omega)).mono fun c' s₅ ⟨hCmd', hs₅⟩ => ?_
    exact wp_pure.mpr ⟨by rw [hCmd'], hs₅⟩

theorem returns_pipe (ih : ParsersComplete es fuel)
    (hPipe : Pipe ts cmd) (hs : tokens es s = ts ++ rest) (hRest : Ends [ch ')', ch '&', ch ';'] rest)
    (hFuel : 4 * ts.length + 3 ≤ fuel + 1) : Returns es (parsepipe es (fuel + 1)) s cmd rest := by
  rw [Returns, parsepipe, wp_bind]
  cases hPipe with
  | last hExec =>
    refine (ih.exec s _ _ _ hExec hs (hRest.mono rfl) (by omega)).mono
      fun cmd' s₁ ⟨hCmd, hs₁⟩ => ?_
    rw [wp_bind]
    refine wp_peek es rfl fun s₂ hs₂ => ?_
    rw [hs₁] at hs₂ ⊢
    rw [hRest.not_starts rfl, if_neg (by decide)]
    exact wp_pure.mpr ⟨hCmd, hs₂⟩
  | @pipe ts ts' cmd cmd' hExec hPipe' =>
    simp only [List.length_append, List.length_cons] at hFuel
    rw [List.append_assoc] at hs
    refine (ih.exec s _ _ _ hExec hs (.inr rfl) (by omega)).mono fun c s₁ ⟨hCmd, hs₁⟩ => ?_
    rw [wp_bind]
    refine wp_peek es rfl fun s₂ hs₂ => ?_
    have hBar : starts [ch '|'] (.bar :: ts' ++ rest) = true := rfl
    rw [hs₁] at hs₂ ⊢
    rw [hBar, if_pos rfl, wp_bind]
    refine wp_gettoken_cons hs₂ fun s₃ hs₃ => ?_
    rw [wp_bind]
    refine (ih.pipe s₃ _ _ _ hPipe' hs₃ hRest (by omega)).mono fun c' s₄ ⟨hCmd', hs₄⟩ => ?_
    exact wp_pure.mpr ⟨by rw [hCmd, hCmd'], hs₄⟩

/-- A simple command does not start with a parenthesis. -/
theorem Simple.not_lpar {args : List (Nat × Nat)}
    (h : Simple ts args rs) (hRest : Ends execEnd rest) : starts [ch '('] (ts ++ rest) = false := by
  cases h with
  | nil => exact hRest.not_starts rfl
  | word h => rfl
  | @redir op q eq r _ _ _ hOp h => cases op <;> first | rfl | cases hOp

theorem returns_exec (ih : ParsersComplete es fuel)
    (hExec : Exec ts cmd) (hs : tokens es s = ts ++ rest) (hRest : Ends execEnd rest)
    (hFuel : 4 * ts.length + 2 ≤ fuel + 1) : Returns es (parseexec es (fuel + 1)) s cmd rest := by
  rw [Returns, parseexec, wp_bind]
  refine wp_peek es rfl fun s₁ hs₁ => ?_
  rw [hs] at hs₁ ⊢
  cases hExec with
  | @block ts rts cmd rs hLine hRedirs =>
    simp only [List.length_append, List.length_cons] at hFuel
    have hOpen : starts [ch '('] (.lpar :: (ts ++ .rpar :: rts) ++ rest) = true := rfl
    rw [hOpen, if_pos rfl]
    exact ih.block s₁ _ _ _ _ _ hLine hRedirs hs₁ hRest (by omega)
  | @simple ts args rs hSimple hArgs =>
    rw [hSimple.not_lpar hRest, if_neg (by decide)]
    have hLoop : wp Never (parseredirs es fuel [] >>= fun rs => execLoop es fuel [] rs)
        (fun r s' => r = (args, rs) ∧ tokens es s' = rest) s₁ :=
      complete_simple hSimple hs₁ hRest hArgs (by omega) (by omega) fun s' hs' => ⟨rfl, hs'⟩
    rw [wp_bind] at hLoop ⊢
    refine hLoop.mono fun rs₁ s₂ hEnd => ?_
    rw [wp_bind]
    refine hEnd.mono fun r s₃ ⟨hr, hs₃⟩ => ?_
    rw [hr]
    show wp Never (when (MAXARGS ≤ args.length) (throw .bounds) >>= fun _ => _) _ s₃
    rw [wp_bind, wp_when]
    exact ⟨fun hBad => by omega, fun _ => wp_pure.mpr ⟨rfl, hs₃⟩⟩

theorem returns_block (ih : ParsersComplete es fuel) {rts : List Token} (hLine : Line ts cmd) (hRedirs : Redirs rts rs)
    (hs : tokens es s = .lpar :: (ts ++ .rpar :: rts) ++ rest) (hRest : Ends execEnd rest)
    (hFuel : 4 * (ts.length + rts.length + 2) + 1 ≤ fuel + 1) :
    Returns es (parseblock es (fuel + 1)) s (cmd.wrap rs) rest := by
  have hOpen : starts [ch '('] (.lpar :: (ts ++ .rpar :: rts) ++ rest) = true := rfl
  have hClose : starts [ch ')'] (.rpar :: rts ++ rest) = true := rfl
  rw [Returns, parseblock, wp_bind]
  refine wp_peek es rfl fun s₁ hs₁ => ?_
  rw [hs] at hs₁ ⊢
  rw [hOpen, wp_bind, wp_when]
  refine ⟨fun hBad => absurd hBad (by decide), fun _ => ?_⟩
  rw [wp_bind]
  refine wp_gettoken_cons hs₁ fun s₂ hs₂ => ?_
  rw [List.append_eq, List.append_assoc] at hs₂
  rw [wp_bind]
  refine (ih.line s₂ _ _ _ hLine hs₂ (.inr hClose) (by omega)).mono fun c s₃ ⟨hCmd, hs₃⟩ => ?_
  rw [wp_bind]
  refine wp_peek es rfl fun s₄ hs₄ => ?_
  rw [hs₃] at hs₄ ⊢
  rw [hClose, wp_bind, wp_when]
  refine ⟨fun hBad => absurd hBad (by decide), fun _ => ?_⟩
  rw [wp_bind]
  refine wp_gettoken_cons hs₄ fun s₅ hs₅ => ?_
  rw [wp_bind]
  refine complete_redirs hRedirs hs₅ (hRest.not_starts rfl) (by omega) fun s₆ hs₆ => ?_
  exact wp_pure.mpr ⟨by rw [hCmd]; rfl, hs₆⟩

theorem parsersComplete (es fuel : Nat) : ParsersComplete es fuel := by
  induction fuel with
  | zero =>
    exact ⟨fun _ _ _ _ _ _ _ h => by omega, fun _ _ _ _ _ _ _ h => by omega,
      fun _ _ _ _ _ _ _ h => by omega, fun _ _ _ _ _ _ _ _ _ _ h => by omega⟩
  | succ fuel ih =>
    exact ⟨fun _ _ _ _ => returns_line ih, fun _ _ _ _ => returns_pipe ih,
      fun _ _ _ _ => returns_exec ih, fun _ _ _ _ _ _ => returns_block ih⟩

/-! ## Pointers -/

/-- All pairs of pointers to a string and to its end that a command holds. -/
def Cmd.Pointers (p : Nat → Nat → Prop) : Cmd → Prop
  | .exec args => ∀ w ∈ args, p w.1 w.2
  | .redir cmd r => Cmd.Pointers p cmd ∧ p r.file r.efile
  | .pipe left right => Cmd.Pointers p left ∧ Cmd.Pointers p right
  | .list left right => Cmd.Pointers p left ∧ Cmd.Pointers p right
  | .back cmd => Cmd.Pointers p cmd

variable {p : Nat → Nat → Prop}

theorem Cmd.Pointers.backs (h : cmd.Pointers p) (n : Nat) : (cmd.backs n).Pointers p := by
  induction n generalizing cmd with
  | zero => exact h
  | succ n ih => exact @ih (.back cmd) h

theorem Cmd.Pointers.wrap (h : cmd.Pointers p)
    (hr : ∀ r ∈ rs, p r.file r.efile) : (cmd.wrap rs).Pointers p := by
  induction rs generalizing cmd with
  | nil => exact h
  | cons r rs ih =>
    have hHead : (Cmd.redir cmd r).Pointers p := ⟨h, hr r List.mem_cons_self⟩
    exact ih hHead fun r' hr' => hr r' (List.mem_cons_of_mem _ hr')

/-- The words of a list of tokens satisfy `p`. -/
def Words (p : Nat → Nat → Prop) (ts : List Token) : Prop := ∀ q eq, .word q eq ∈ ts → p q eq

theorem Words.left {ts' : List Token} (h : Words p (ts ++ ts')) : Words p ts :=
  fun q eq hMem => h q eq (List.mem_append_left _ hMem)

theorem Words.right {ts' : List Token} (h : Words p (ts ++ ts')) : Words p ts' :=
  fun q eq hMem => h q eq (List.mem_append_right _ hMem)

theorem Words.tail (h : Words p (tok :: ts)) : Words p ts :=
  fun q eq hMem => h q eq (List.mem_cons_of_mem _ hMem)

theorem redir_pointers {op : Token} {q eq : Nat} {r : Redir} (h : op.redir q eq = some r) :
    r.file = q ∧ r.efile = eq := by
  cases op <;> cases h <;> exact ⟨rfl, rfl⟩

theorem Redirs.pointers (h : Redirs ts rs) (hw : Words p ts) :
    ∀ r ∈ rs, p r.file r.efile := by
  induction h with
  | nil => exact fun r hr => absurd hr List.not_mem_nil
  | cons hOp _ ih =>
    intro r hr
    rcases List.mem_cons.mp hr with rfl | hr
    · obtain ⟨hFile, hEnd⟩ := redir_pointers hOp
      rw [hFile, hEnd]
      exact hw _ _ (List.mem_cons_of_mem _ List.mem_cons_self)
    · exact ih hw.tail.tail r hr

theorem Simple.pointers {args : List (Nat × Nat)} (h : Simple ts args rs) (hw : Words p ts) :
    (∀ w ∈ args, p w.1 w.2) ∧ ∀ r ∈ rs, p r.file r.efile := by
  induction h with
  | nil => exact ⟨fun w hMem => absurd hMem List.not_mem_nil, fun r hr => absurd hr List.not_mem_nil⟩
  | word _ ih =>
    obtain ⟨hArgs, hRs⟩ := ih hw.tail
    refine ⟨fun w hMem => ?_, hRs⟩
    rcases List.mem_cons.mp hMem with rfl | hMem
    · exact hw _ _ List.mem_cons_self
    · exact hArgs w hMem
  | redir hOp _ ih =>
    obtain ⟨hArgs, hRs⟩ := ih hw.tail.tail
    refine ⟨hArgs, fun r hr => ?_⟩
    rcases List.mem_cons.mp hr with rfl | hr
    · obtain ⟨hFile, hEnd⟩ := redir_pointers hOp
      rw [hFile, hEnd]
      exact hw _ _ (List.mem_cons_of_mem _ List.mem_cons_self)
    · exact hRs r hr

mutual

theorem Line.pointers {ts : List Token} {cmd : Cmd} : Line ts cmd → Words p ts → cmd.Pointers p
  | .last n h, hw => (h.pointers hw.left).backs n
  | .list n h h', hw => ⟨(h.pointers hw.left).backs n, h'.pointers hw.right.right.tail⟩

theorem Pipe.pointers {ts : List Token} {cmd : Cmd} : Pipe ts cmd → Words p ts → cmd.Pointers p
  | .last h, hw => h.pointers hw
  | .pipe h h', hw => ⟨h.pointers hw.left, h'.pointers hw.right.tail⟩

theorem Exec.pointers {ts : List Token} {cmd : Cmd} : Exec ts cmd → Words p ts → cmd.Pointers p
  | .block h hr, hw => (h.pointers hw.tail.left).wrap (hr.pointers hw.tail.right.tail)
  | .simple h _, hw =>
    have hArgs : Cmd.Pointers p (.exec _) := (h.pointers hw).1
    hArgs.wrap (h.pointers hw).2

end

/-- Words are not empty and end where the string does at the latest. -/
theorem tokens_words (hs : s.length ≤ es) : Words (fun q eq => q < eq ∧ eq ≤ es) (tokens es s) := by
  suffices h : ∀ fuel s, s.length ≤ es → Words (fun q eq => q < eq ∧ eq ≤ es) (tokensUpTo es fuel s) from
    h _ s hs
  intro fuel
  induction fuel with
  | zero => exact fun s _ q eq hMem => absurd hMem List.not_mem_nil
  | succ fuel ih =>
    intro s hs q eq hMem
    rw [tokensUpTo] at hMem
    cases hSkip : skip s with
    | nil =>
      rw [lex_nil hSkip] at hMem
      exact absurd hMem List.not_mem_nil
    | cons c rest =>
      obtain ⟨tok, s', hLex, hSpec⟩ := lex_cons es hSkip
      have hLen := skip_length s
      rw [hSkip, List.length_cons] at hLen
      have hLess := hSpec.shorter
      rw [hLex] at hMem
      rcases List.mem_cons.mp hMem with hTok | hMem
      · obtain ⟨hq, heq⟩ := hSpec.pointer q eq hTok.symm
        omega
      · refine ih _ ?_ q eq hMem
        have := skip_length s'
        omega

theorem tokens_length (es : Nat) (s : List UInt8) : (tokens es s).length ≤ s.length := by
  suffices h : ∀ fuel s, (tokensUpTo es fuel s).length ≤ fuel from h _ s
  intro fuel
  induction fuel with
  | zero => exact fun s => Nat.le_refl 0
  | succ fuel ih =>
    intro s
    rw [tokensUpTo]
    split
    · exact Nat.zero_le _
    · exact Nat.succ_le_succ (ih _)

/-! ## The result -/

/-- The end of `parsecmd`. -/
theorem parsecmd_eq (s : List UInt8) :
    parsecmd s = match parseline s.length (4 * s.length + 4) s with
      | .ok (cmd, rest) =>
        if skip rest = [] then .ok (cmd, nulterminate cmd (s ++ [0])) else .error .unexpected
      | .error e => .error e := by
  unfold parsecmd
  cases parseline s.length (4 * s.length + 4) s with
  | error e => rfl
  | ok r =>
    obtain ⟨cmd, rest⟩ := r
    show (if skip rest ≠ [] then _ else _) = _
    by_cases hNil : skip rest = []
    · rw [if_neg (fun hne => hne hNil)]
      simp only [if_pos hNil]
      rfl
    · rw [if_pos hNil]
      simp only [if_neg hNil]
      rfl

theorem parsecmd_ok_iff (s : List UInt8) (cmd : Cmd) (buf : List UInt8) :
    parsecmd s = .ok (cmd, buf) ↔
      Line (tokens s.length s) cmd ∧ buf = nulterminate cmd (s ++ [0]) := by
  have hTokens := tokens_length s.length s
  have hSound := (parsersSound s.length _).line s (Nat.add_le_add_right (Nat.mul_le_mul_left 4 hTokens) 4)
  rw [parsecmd_eq]
  constructor
  · intro hOk
    cases hp : parseline s.length (4 * s.length + 4) s with
    | error e =>
      rw [hp] at hOk
      cases hOk
    | ok r =>
      obtain ⟨cmd', rest⟩ := r
      obtain ⟨ts, hts, hLine⟩ := hSound.ok hp
      simp only [hp] at hOk
      split at hOk
      · rename_i hNil
        cases hOk
        rw [tokens_none hNil, List.append_nil] at hts
        rw [hts]
        exact ⟨hLine, rfl⟩
      · cases hOk
  · rintro ⟨hLine, rfl⟩
    have hComplete := (parsersComplete s.length (4 * s.length + 4)).line s _ [] cmd hLine
      (List.append_nil _).symm (.inl rfl) (by omega)
    cases hp : parseline s.length (4 * s.length + 4) s with
    | error e => exact (hComplete.error hp).elim
    | ok r =>
      obtain ⟨cmd', rest⟩ := r
      obtain ⟨rfl, hRest⟩ := hComplete.ok hp
      simp only [if_pos (tokens_eq_nil.mp hRest)]

theorem parsecmd_error {s : List UInt8} {e : Panic} (h : parsecmd s = .error e) : SyntaxError e := by
  have hTokens := tokens_length s.length s
  have hSound := (parsersSound s.length _).line s (Nat.add_le_add_right (Nat.mul_le_mul_left 4 hTokens) 4)
  rw [parsecmd_eq] at h
  cases hp : parseline s.length (4 * s.length + 4) s with
  | error e' =>
    rw [hp] at h
    cases h
    exact hSound.error hp
  | ok r =>
    obtain ⟨cmd, rest⟩ := r
    simp only [hp] at h
    split at h
    · cases h
    · cases h
      exact .inl rfl

/-- `parsecmd` returns a tree exactly when the grammar derives it from the tokens of the string, and fails
with a syntax error otherwise: it does not run on, and no store goes beyond `argv`. The pointers of the
tree lie within the string. -/
theorem parsecmd_correct (s : List UInt8) :
    (∀ cmd buf, parsecmd s = .ok (cmd, buf) ↔
      Line (tokens s.length s) cmd ∧ buf = nulterminate cmd (s ++ [0])) ∧
    (∀ e, parsecmd s = .error e → SyntaxError e) ∧
    ∀ cmd buf, parsecmd s = .ok (cmd, buf) →
      cmd.Pointers fun q eq => q < eq ∧ eq ≤ s.length := by
  refine ⟨parsecmd_ok_iff s, fun e => parsecmd_error, fun cmd buf hOk => ?_⟩
  exact ((parsecmd_ok_iff s cmd buf).mp hOk).1.pointers (tokens_words (Nat.le_refl _))

/-- `a <b|(c;d&)>>e` -/
example : (parsecmd (['a', ' ', '<', 'b', '|', '(', 'c', ';', 'd', '&', ')', '>', '>', 'e'].map ch)).map
      Prod.fst =
    .ok (.pipe (.redir (.exec [(0, 1)]) { file := 3, efile := 4, mode := 0, fd := 0 })
      (.redir (.list (.exec [(6, 7)]) (.back (.exec [(8, 9)])))
        { file := 13, efile := 14, mode := 0x201, fd := 1 })) := rfl

end Xv6.Sh
