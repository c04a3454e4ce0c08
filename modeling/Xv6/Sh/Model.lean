import Xv6.Lib.Hoare

/-!
# xv6 — the parser of the shell (`user/sh.c`)

The recursive-descent parser of `sh.c`. A string is the list of its bytes before the NUL that ends it,
and the cursor `*ps` is what is left of that list, so that the pointers the parser stores are
distances from the end, `es`, of the string.

`parseexec` fills in the arguments of a node around which `parseredirs` has already put redirections:
here both are collected, and the tree is built when the arguments are complete.

The parsers call each other without end only if none of them moves the cursor; their first
argument bounds the depth of calls and the turns of loops, and `endless` would say that the bound was hit.
`bounds` would say that a store goes beyond the end of `argv`.
-/

namespace Xv6.Sh

open Hoare

/-- `MAXARGS` -/
def MAXARGS : Nat := 10

/-- A redirection: `file` and `efile` point to the name and to its end. -/
structure Redir where
  file  : Nat
  efile : Nat
  mode  : Nat
  fd    : Nat
  deriving DecidableEq, Repr

/-- `struct cmd`; the arguments of `exec` are pairs of `argv[i]` and `eargv[i]`. -/
inductive Cmd where
  | exec (args : List (Nat × Nat))
  | redir (cmd : Cmd) (r : Redir)
  | pipe (left right : Cmd)
  | list (left right : Cmd)
  | back (cmd : Cmd)
  deriving DecidableEq, Repr

/-- Put redirections around a command, the first one innermost. -/
def Cmd.wrap (cmd : Cmd) (rs : List Redir) : Cmd := rs.foldl Cmd.redir cmd

/-- Why `parsecmd` does not return. -/
inductive Panic where
  /-- `panic("syntax")` -/
  | unexpected
  | missingFile
  | missingParen
  | tooManyArgs
  | parseblock
  | bounds
  | endless
  deriving DecidableEq, Repr

/-- What `gettoken` finds; a word has its `q` and `eq`. -/
inductive Token where
  | bar
  | lpar
  | rpar
  | semi
  | amp
  | lt
  | gt
  | gtgt
  | word (q eq : Nat)
  deriving DecidableEq, Repr

abbrev P := Prog (List UInt8) Panic

/-! ## gettoken and peek -/

def ch (c : Char) : UInt8 := c.toUInt8

/-- `" \t\r\n\v"` -/
def whitespace : List UInt8 := [32, 9, 13, 10, 11]

/-- `"<|>&;()"` -/
def symbols : List UInt8 := [ch '<', ch '|', ch '>', ch '&', ch ';', ch '(', ch ')']

/-- `while(s < es && strchr(whitespace, *s)) s++;` -/
def skip (s : List UInt8) : List UInt8 := s.dropWhile fun c => whitespace.contains c

/-- A character of a word. -/
def inWord (c : UInt8) : Bool := !whitespace.contains c && !symbols.contains c

/-- The token at `s`, where no blank is, and what follows it; `none` is the end of the string. -/
def lexAt (es : Nat) (s : List UInt8) : Option Token × List UInt8 :=
  match s with
  | [] => (none, [])
  | c :: rest =>
    if c = ch '|' then (some .bar, rest)
    else if c = ch '(' then (some .lpar, rest)
    else if c = ch ')' then (some .rpar, rest)
    else if c = ch ';' then (some .semi, rest)
    else if c = ch '&' then (some .amp, rest)
    else if c = ch '<' then (some .lt, rest)
    else if c = ch '>' then
      if rest.head? = some (ch '>') then (some .gtgt, rest.tail) else (some .gt, rest)
    else
      let s' := s.dropWhile inWord
      (some (.word (es - s.length) (es - s'.length)), s')

/-- The next token, and the string after it and the blanks that follow it. -/
def lex (es : Nat) (s : List UInt8) : Option Token × List UInt8 :=
  let (tok, s) := lexAt es (skip s)
  (tok, skip s)

def gettoken (es : Nat) : P (Option Token) := do
  let (tok, s) := lex es (← get)
  set s
  return tok

/-- Is the next character one of `toks`? -/
def peek (toks : List UInt8) : P Bool := do
  let s := skip (← get)
  set s
  return s.head?.any fun c => toks.contains c

/-! ## The parsers -/

def O_RDONLY : Nat := 0x000
def O_WRONLY : Nat := 0x001
def O_CREATE : Nat := 0x200
def O_TRUNC : Nat := 0x400

/-- The `switch(tok)` of `parseredirs`. -/
def Token.redir (tok : Token) (q eq : Nat) : Option Redir :=
  match tok with
  | .lt => some { file := q, efile := eq, mode := O_RDONLY, fd := 0 }
  | .gt => some { file := q, efile := eq, mode := O_WRONLY ||| O_CREATE ||| O_TRUNC, fd := 1 }
  | .gtgt => some { file := q, efile := eq, mode := O_WRONLY ||| O_CREATE, fd := 1 }
  | _ => none

/-- The loop of `parseredirs`; `rs` are the redirections around the command so far. -/
def parseredirs (es : Nat) : (fuel : Nat) → (rs : List Redir) → P (List Redir)
  | 0, _ => throw .endless
  | fuel + 1, rs => do
    if ← peek [ch '<', ch '>'] then
      let tok ← gettoken es
      match ← gettoken es with
      | some (.word q eq) => parseredirs es fuel (rs ++ (tok.bind fun tok => tok.redir q eq).toList)
      | _ => throw .missingFile
    else return rs

/-- The loop of `parseexec`; `args` are the arguments so far. -/
def execLoop (es : Nat) : (fuel : Nat) → (args : List (Nat × Nat)) → (rs : List Redir) →
    P (List (Nat × Nat) × List Redir)
  | 0, _, _ => throw .endless
  | fuel + 1, args, rs => do
    if ← peek [ch '|', ch ')', ch '&', ch ';'] then return (args, rs)
    else
      match ← gettoken es with
      | none => return (args, rs)
      | some (.word q eq) =>
        -- cmd->argv[argc] = q; cmd->eargv[argc] = eq; argc++
        when (MAXARGS ≤ args.length) (throw .bounds)
        when (MAXARGS ≤ args.length + 1) (throw .tooManyArgs)
        let rs ← parseredirs es fuel rs
        execLoop es fuel (args ++ [(q, eq)]) rs
      | some _ => throw .unexpected

/-- The loop of `parseline`. -/
def backLoop (es : Nat) : (fuel : Nat) → Cmd → P Cmd
  | 0, _ => throw .endless
  | fuel + 1, cmd => do
    if ← peek [ch '&'] then
      let _ ← gettoken es
      backLoop es fuel (.back cmd)
    else return cmd

mutual

def parseline (es : Nat) : (fuel : Nat) → P Cmd
  | 0 => throw .endless
  | fuel + 1 => do
    let cmd ← parsepipe es fuel
    let cmd ← backLoop es fuel cmd
    if ← peek [ch ';'] then
      let _ ← gettoken es
      return .list cmd (← parseline es fuel)
    else return cmd

def parsepipe (es : Nat) : (fuel : Nat) → P Cmd
  | 0 => throw .endless
  | fuel + 1 => do
    let cmd ← parseexec es fuel
    if ← peek [ch '|'] then
      let _ ← gettoken es
      return .pipe cmd (← parsepipe es fuel)
    else return cmd

def parseexec (es : Nat) : (fuel : Nat) → P Cmd
  | 0 => throw .endless
  | fuel + 1 => do
    if ← peek [ch '('] then parseblock es fuel
    else
      let rs ← parseredirs es fuel []
      let (args, rs) ← execLoop es fuel [] rs
      -- cmd->argv[argc] = 0; cmd->eargv[argc] = 0
      when (MAXARGS ≤ args.length) (throw .bounds)
      return (Cmd.exec args).wrap rs

def parseblock (es : Nat) : (fuel : Nat) → P Cmd
  | 0 => throw .endless
  | fuel + 1 => do
    when (!(← peek [ch '('])) (throw .parseblock)
    let _ ← gettoken es
    let cmd ← parseline es fuel
    when (!(← peek [ch ')'])) (throw .missingParen)
    let _ ← gettoken es
    let rs ← parseredirs es fuel []
    return cmd.wrap rs

end

/-- NUL-terminate all the counted strings of a command in the buffer `buf`. -/
def nulterminate : Cmd → (buf : List UInt8) → List UInt8
  | .exec args, buf => args.foldl (fun buf w => buf.set w.2 0) buf
  | .redir cmd r, buf => (nulterminate cmd buf).set r.efile 0
  | .pipe left right, buf => nulterminate right (nulterminate left buf)
  | .list left right, buf => nulterminate right (nulterminate left buf)
  | .back cmd, buf => nulterminate cmd buf

/-- Parse the string `s`: the command, and the buffer of `s` after `nulterminate`. -/
def parsecmd (s : List UInt8) : Except Panic (Cmd × List UInt8) := do
  let (cmd, rest) ← parseline s.length (4 * s.length + 4) s
  let (_, rest) ← peek [] rest
  -- s != es: leftovers
  if rest ≠ [] then throw .unexpected
  return (cmd, nulterminate cmd (s ++ [0]))

end Xv6.Sh
