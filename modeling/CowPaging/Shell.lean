import CowPaging.Lib.Bytes
import CowPaging.Lib.StateExcept

/-!
# The parser of the shell

`sh.c` from `gettoken` to `nulterminate`. A line is the list of its bytes before the NUL, and a
pointer into it is a position; `*ps` is the state. The parsed words are spans of the line, the
fields `argv[i]` and `eargv[i]` or `file` and `efile` of the source, until `nulterminate` ends
each of them with a NUL in the buffer. The recursion of the source has no bound; here it takes
one, and `parsecmd` gives enough for the line.
-/

namespace CowPaging.Shell

open Bytes StateExcept

/-- `panic` with its text, or a bound of the model was too small. -/
inductive Stop where
  | panic (msg : String)
  | spin
deriving DecidableEq, Repr

def MAXARGS : Nat := 10

def O_RDONLY : Nat := 0
def O_WRONLY : Nat := 1
def O_CREATE : Nat := 512

/-- The text from `q` up to `eq`. -/
structure Span where
  q : Nat
  eq : Nat
deriving DecidableEq, Repr

/-- A parsed command over words of type `W`. -/
inductive Cmd (W : Type) where
  | exec (argv : List W)
  | redir (cmd : Cmd W) (file : W) (mode fd : Nat)
  | pipe (left right : Cmd W)
  | list (left right : Cmd W)
  | back (cmd : Cmd W)
deriving DecidableEq, Repr

def ch (c : Char) : Byte := BitVec.ofNat 8 c.toNat

/-- Blank, tab, carriage return, newline and vertical tab. -/
def whitespace : List Byte := [32, 9, 13, 10, 11]

def symbols : List Byte := [ch '<', ch '|', ch '>', ch '&', ch ';', ch '(', ch ')']

/-- `strchr(whitespace, c)`. -/
def isWhite (c : Byte) : Bool := decide (c ∈ whitespace)

/-- A byte that does not end a word. -/
def isWordByte (c : Byte) : Bool := !isWhite c && decide (c ∉ symbols)

abbrev P := StateT Nat (Except Stop)

section Model

variable (line : List Byte)

/-- The byte at a position; the line ends with a NUL. -/
def charAt (i : Nat) : Byte := line.getD i 0

/-- `while(s < es && p(*s)) s++`, with `es - s` turns at most. -/
def skipTurns (p : Byte → Bool) : Nat → Nat → Nat
  | 0, s => s
  | left + 1, s => if p (charAt line s) then skipTurns p left (s + 1) else s

def skip (p : Byte → Bool) (s : Nat) : Nat := skipTurns line p (line.length - s) s

/-- What `gettoken` returns: the code, `*q` and `*eq`. -/
structure Token where
  ret : Byte
  span : Span

/-- The token at the first byte that is not blank. -/
def scan (s : Nat) : Token :=
  let q := skip line isWhite s
  let c := charAt line q
  if c = 0 then ⟨0, q, q⟩
  else if c = ch '|' ∨ c = ch '(' ∨ c = ch ')' ∨ c = ch ';' ∨ c = ch '&' ∨ c = ch '<' then
    ⟨c, q, q + 1⟩
  else if c = ch '>' then
    if charAt line (q + 1) = ch '>' then ⟨ch '+', q, q + 2⟩ else ⟨c, q, q + 1⟩
  else ⟨ch 'a', q, skip line isWordByte q⟩

/-- Where the token after the one at `s` starts. -/
def next (s : Nat) : Nat := skip line isWhite (scan line s).span.eq

def gettoken : P Token := do
  let s ← get
  set (next line s)
  pure (scan line s)

/-- `peek(ps, es, toks)`. -/
def peek (toks : List Byte) : P Bool := do
  modify fun s => skip line isWhite s
  let s ← get
  pure (decide (charAt line s ≠ 0 ∧ charAt line s ∈ toks))

/-- `parseredirs`. -/
def parseredirs : Nat → Cmd Span → P (Cmd Span)
  | 0, _ => throw .spin
  | fuel + 1, cmd => do
    if ← peek line [ch '<', ch '>'] then do
      let tok ← gettoken line
      let file ← gettoken line
      if file.ret ≠ ch 'a' then throw (.panic "missing file for redirection")
      else if tok.ret = ch '<' then parseredirs fuel (.redir cmd file.span O_RDONLY 0)
      else if tok.ret = ch '>' then parseredirs fuel (.redir cmd file.span (O_WRONLY ||| O_CREATE) 1)
      else if tok.ret = ch '+' then parseredirs fuel (.redir cmd file.span (O_WRONLY ||| O_CREATE) 1)
      else parseredirs fuel cmd
    else pure cmd

/-- Store through the pointer `cmd` of `parseexec`: the command at the bottom of the
    redirections gets its arguments. -/
def Cmd.setArgv {W : Type} (argv : List W) : Cmd W → Cmd W
  | .exec _ => .exec argv
  | .redir cmd file mode fd => .redir (cmd.setArgv argv) file mode fd
  | cmd => cmd

/-- The loop of `parseexec`: `argv` has the arguments so far, and `ret` is the command with
    its redirections. -/
def parseargs : Nat → List Span → Cmd Span → P (Cmd Span)
  | 0, _, _ => throw .spin
  | fuel + 1, argv, ret => do
    if ← peek line [ch '|', ch ')', ch '&', ch ';'] then pure (ret.setArgv argv)
    else do
      let tok ← gettoken line
      if tok.ret = 0 then pure (ret.setArgv argv)
      else if tok.ret ≠ ch 'a' then throw (.panic "syntax")
      else if argv.length + 1 ≥ MAXARGS then throw (.panic "too many args")
      else do
        let ret ← parseredirs line fuel ret
        parseargs fuel (argv ++ [tok.span]) ret

/-- The loop of `parseline` over `&`. -/
def parsebacks : Nat → Cmd Span → P (Cmd Span)
  | 0, _ => throw .spin
  | fuel + 1, cmd => do
    if ← peek line [ch '&'] then do
      let _ ← gettoken line
      parsebacks fuel (.back cmd)
    else pure cmd

mutual

def parseline : Nat → P (Cmd Span)
  | 0 => throw .spin
  | fuel + 1 => do
    let cmd ← parsepipe fuel
    let cmd ← parsebacks line fuel cmd
    if ← peek line [ch ';'] then do
      let _ ← gettoken line
      let rest ← parseline fuel
      pure (.list cmd rest)
    else pure cmd

def parsepipe : Nat → P (Cmd Span)
  | 0 => throw .spin
  | fuel + 1 => do
    let cmd ← parseexec fuel
    if ← peek line [ch '|'] then do
      let _ ← gettoken line
      let rest ← parsepipe fuel
      pure (.pipe cmd rest)
    else pure cmd

def parseblock : Nat → P (Cmd Span)
  | 0 => throw .spin
  | fuel + 1 => do
    if ← peek line [ch '('] then do
      let _ ← gettoken line
      let cmd ← parseline fuel
      if ← peek line [ch ')'] then do
        let _ ← gettoken line
        parseredirs line fuel cmd
      else throw (.panic "syntax - missing )")
    else throw (.panic "parseblock")

def parseexec : Nat → P (Cmd Span)
  | 0 => throw .spin
  | fuel + 1 => do
    if ← peek line [ch '('] then parseblock fuel
    else do
      let ret ← parseredirs line fuel (.exec [])
      parseargs line fuel [] ret

end

/-- `nulterminate`: a NUL at the end of every word. -/
def nulterminate : Cmd Span → (Nat → Byte) → Nat → Byte
  | .exec argv, m => argv.foldl (fun m w => Function.update m w.eq 0) m
  | .redir cmd file _ _, m => Function.update (nulterminate cmd m) file.eq 0
  | .pipe left right, m => nulterminate right (nulterminate left m)
  | .list left right, m => nulterminate right (nulterminate left m)
  | .back cmd, m => nulterminate cmd m

/-- `parsecmd`: the command, and the buffer after it. -/
def parsecmd : Except Stop (Cmd Span × (Nat → Byte)) := do
  let (cmd, s) ← (do
    let cmd ← parseline line (4 * line.length + 4)
    let _ ← peek line []
    pure cmd : P (Cmd Span)) 0
  if s ≠ line.length then throw (.panic "syntax")
  else pure (cmd, nulterminate cmd (charAt line))

end Model

end CowPaging.Shell
