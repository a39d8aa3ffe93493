import Xv6.Lib.Ensures
import Mathlib.Data.List.Basic

namespace Xv6.Shell

open Function

def maxargs : Nat := 10

inductive Cmd (α : Type) where
  | exec (argv : List α)
  | redir (cmd : Cmd α) (file : α) (mode : Nat) (fd : Nat)
  | pipe (left right : Cmd α)
  | list (left right : Cmd α)
  | back (cmd : Cmd α)
  deriving DecidableEq

def rdonly : Nat := 0x000
def wronly : Nat := 0x001
def creates : Nat := 0x200
def truncates : Nat := 0x400

def bar : UInt8 := 124
def lparen : UInt8 := 40
def rparen : UInt8 := 41
def semi : UInt8 := 59
def amp : UInt8 := 38
def lt : UInt8 := 60
def gt : UInt8 := 62
def plus : UInt8 := 43
def letterA : UInt8 := 97

def whitespace : List UInt8 := [32, 9, 13, 10, 11]

def symbols : List UInt8 := [lt, bar, gt, amp, semi, lparen, rparen]

def isSpace (c : UInt8) : Bool := c ∈ whitespace

def isWord (c : UInt8) : Bool := c ∉ whitespace ∧ c ∉ symbols

/-- The `q` and `eq` of a token. -/
structure Span where
  q : Nat
  eq : Nat
  deriving DecidableEq

/-- Why the parser does not return: `panic`; the input that is left over; a read past the end of the string;
more calls or rounds than the model allows. -/
inductive Stop where
  | panic (msg : String)
  | leftovers (s : Nat)
  | overrun
  | fuel
  deriving DecidableEq

/-- A part of the parser, which moves the cursor `*ps`. -/
abbrev P := EStateM Stop Nat

section Parser

variable (inp : List UInt8)

def deref (s : Nat) : P UInt8 := if s ≤ inp.length then pure (inp.getD s 0) else throw .overrun

/-- `while(s < es && p(*s)) s++`, which has at most `es - s` rounds. -/
def advance (p : UInt8 → Bool) : Nat → Nat → P Nat
  | 0, s => return s
  | rounds + 1, s =>
    if s < inp.length then do
      let c ← deref inp s
      if p c then advance p rounds (s + 1) else return s
    else
      return s

def token (s : Nat) (c : UInt8) : P (UInt8 × Nat) :=
  if c = 0 then
    return (0, s)
  else if c = bar ∨ c = lparen ∨ c = rparen ∨ c = semi ∨ c = amp ∨ c = lt then
    return (c, s + 1)
  else if c = gt then do
    let d ← deref inp (s + 1)
    if d = gt then return (plus, s + 2) else return (c, s + 1)
  else do
    let e ← advance inp isWord (inp.length - s) s
    return (letterA, e)

def gettoken : P (UInt8 × Span) := do
  let s ← get
  let q ← advance inp isSpace (inp.length - s) s
  let c ← deref inp q
  let (ret, eq) ← token inp q c
  let s ← advance inp isSpace (inp.length - eq) eq
  set s
  return (ret, ⟨q, eq⟩)

def peek (toks : List UInt8) : P Bool := do
  let s ← get
  let s ← advance inp isSpace (inp.length - s) s
  set s
  let c ← deref inp s
  return c ≠ 0 ∧ c ∈ toks

def redirect (tok : UInt8) (cmd : Cmd Span) (file : Span) : Cmd Span :=
  if tok = lt then .redir cmd file rdonly 0
  else if tok = gt then .redir cmd file (wronly ||| creates ||| truncates) 1
  else if tok = plus then .redir cmd file (wronly ||| creates) 1
  else cmd

def redirsLoop : Nat → Cmd Span → P (Cmd Span)
  | 0, _ => throw .fuel
  | rounds + 1, cmd => do
    if ← peek inp [lt, gt] then do
      let (tok, _) ← gettoken inp
      let (a, file) ← gettoken inp
      if a ≠ letterA then
        throw (.panic "missing file for redirection")
      else
        redirsLoop rounds (redirect tok cmd file)
    else
      return cmd

def parseredirs (cmd : Cmd Span) : P (Cmd Span) := redirsLoop inp (inp.length + 1) cmd

/-- The next entry of `argv` of the `execcmd` under the redirections. -/
def Cmd.addArg {α : Type} (w : α) : Cmd α → Cmd α
  | .exec argv => .exec (argv ++ [w])
  | .redir cmd file mode fd => .redir (cmd.addArg w) file mode fd
  | cmd => cmd

def argsLoop : Nat → Nat → Cmd Span → P (Cmd Span)
  | 0, _, _ => throw .fuel
  | rounds + 1, argc, ret => do
    if ← peek inp [bar, rparen, amp, semi] then
      return ret
    else do
      let (tok, w) ← gettoken inp
      if tok = 0 then
        return ret
      else if tok ≠ letterA then
        throw (.panic "syntax")
      else if maxargs ≤ argc + 1 then
        throw (.panic "too many args")
      else do
        let ret ← parseredirs inp (ret.addArg w)
        argsLoop rounds (argc + 1) ret

/-- The part of `parseexec` that is not for a block. -/
def parsesimple : P (Cmd Span) := do
  let ret ← parseredirs inp (.exec [])
  argsLoop inp (inp.length + 1) 0 ret

def backLoop : Nat → Cmd Span → P (Cmd Span)
  | 0, _ => throw .fuel
  | rounds + 1, cmd => do
    if ← peek inp [amp] then do
      let _ ← gettoken inp
      backLoop rounds (.back cmd)
    else
      return cmd

mutual

def parseline : Nat → P (Cmd Span)
  | 0 => throw .fuel
  | depth + 1 => do
    let cmd ← parsepipe depth
    let cmd ← backLoop inp (inp.length + 1) cmd
    if ← peek inp [semi] then do
      let _ ← gettoken inp
      let right ← parseline depth
      return .list cmd right
    else
      return cmd

def parsepipe : Nat → P (Cmd Span)
  | 0 => throw .fuel
  | depth + 1 => do
    let cmd ← parseexec depth
    if ← peek inp [bar] then do
      let _ ← gettoken inp
      let right ← parsepipe depth
      return .pipe cmd right
    else
      return cmd

def parseexec : Nat → P (Cmd Span)
  | 0 => throw .fuel
  | depth + 1 => do
    if ← peek inp [lparen] then
      parseblock depth
    else
      parsesimple inp

def parseblock : Nat → P (Cmd Span)
  | 0 => throw .fuel
  | depth + 1 => do
    if ← peek inp [lparen] then do
      let _ ← gettoken inp
      let cmd ← parseline depth
      if ← peek inp [rparen] then do
        let _ ← gettoken inp
        parseredirs inp cmd
      else
        throw (.panic "syntax - missing )")
    else
      throw (.panic "parseblock")

end

/-- The calls are nested at most this deep. -/
def depth : Nat := 4 * inp.length + 4

/-- `parsecmd` up to `nulterminate`. -/
def parseall : P (Cmd Span) := do
  let cmd ← parseline inp (depth inp)
  let _ ← peek inp []
  let s ← get
  if s ≠ inp.length then
    throw (.leftovers s)
  else
    return cmd

end Parser

/-- The writes of `nulterminate` to the string. -/
def nulterminate : Cmd Span → (Nat → UInt8) → Nat → UInt8
  | .exec argv, mem => argv.foldl (fun mem w => update mem w.eq 0) mem
  | .redir cmd file _ _, mem => update (nulterminate cmd mem) file.eq 0
  | .pipe left right, mem => nulterminate right (nulterminate left mem)
  | .list left right, mem => nulterminate right (nulterminate left mem)
  | .back cmd, mem => nulterminate cmd mem

/-- The command with its words as pointers, and the string as `nulterminate` leaves it. -/
def parsecmd (inp : List UInt8) : Except Stop (Cmd Span × (Nat → UInt8)) :=
  match parseall inp 0 with
  | .ok cmd _ => .ok (cmd, nulterminate cmd fun k => inp.getD k 0)
  | .error e _ => .error e

end Xv6.Shell
