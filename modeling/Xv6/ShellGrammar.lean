import Xv6.Shell
import Mathlib.Logic.Function.Iterate

namespace Xv6.Shell

abbrev Word := List UInt8

inductive Tok where
  | word (w : Word)
  | bar
  | lparen
  | rparen
  | semi
  | amp
  | lt
  | gt
  | append
  deriving DecidableEq

/-- The symbols of one character that no longer symbol starts with. -/
def symbol (c : UInt8) : Option Tok :=
  if c = bar then some .bar
  else if c = lparen then some .lparen
  else if c = rparen then some .rparen
  else if c = semi then some .semi
  else if c = amp then some .amp
  else if c = lt then some .lt
  else none

theorem length_dropWhile_lt (p : UInt8 → Bool) (cs : List UInt8) :
    (cs.dropWhile p).length < cs.length + 1 :=
  Nat.lt_succ_of_le ((List.dropWhile_suffix p).length_le)

/-- The tokens of a string, by longest match. -/
def tokens : List UInt8 → List Tok
  | [] => []
  | c :: cs =>
    if isSpace c then tokens cs
    else if c = gt then
      if cs.head? = some gt then .append :: tokens cs.tail else .gt :: tokens cs
    else
      match symbol c with
      | some t => t :: tokens cs
      | none => .word (c :: cs.takeWhile isWord) :: tokens (cs.dropWhile isWord)
  termination_by l => l.length
  decreasing_by
    all_goals simp only [List.length_cons, List.length_tail]
    all_goals first | omega | exact length_dropWhile_lt _ _

/-- A redirection: its file, and the mode and descriptor it is opened with. -/
structure Redirection where
  file : Word
  mode : Nat
  fd : Nat
  deriving DecidableEq

def Tok.redirection (file : Word) : Tok → Option Redirection
  | .lt => some ⟨file, rdonly, 0⟩
  | .gt => some ⟨file, wronly ||| creates ||| truncates, 1⟩
  | .append => some ⟨file, wronly ||| creates, 1⟩
  | _ => none

/-- The command with redirections around it, the last one outermost. -/
def Cmd.redirs (cmd : Cmd Word) (rs : List Redirection) : Cmd Word :=
  rs.foldl (fun cmd r => .redir cmd r.file r.mode r.fd) cmd

/-- `redir*` -/
inductive Redirs : List Tok → List Redirection → Prop
  | nil : Redirs [] []
  | cons {t : Tok} {w : Word} {r : Redirection} {ts : List Tok} {rs : List Redirection} :
      t.redirection w = some r → Redirs ts rs → Redirs (t :: .word w :: ts) (r :: rs)

/-- `(word redir*)*` -/
inductive Args : List Tok → List Word → List Redirection → Prop
  | nil : Args [] [] []
  | cons {w : Word} {ts us : List Tok} {ws : List Word} {rs rs' : List Redirection} :
      Redirs ts rs → Args us ws rs' → Args (.word w :: (ts ++ us)) (w :: ws) (rs ++ rs')

inductive Phrase where
  | line
  | pipe
  | exec

/-- `Derives g ts c`: the tokens `ts` are a phrase `g` that denotes `c`. -/
inductive Derives : Phrase → List Tok → Cmd Word → Prop
  | line {ts : List Tok} {c : Cmd Word} (n : Nat) :
      Derives .pipe ts c → Derives .line (ts ++ List.replicate n .amp) (Cmd.back^[n] c)
  | list {ts us : List Tok} {l r : Cmd Word} (n : Nat) :
      Derives .pipe ts l → Derives .line us r →
        Derives .line (ts ++ (List.replicate n .amp ++ .semi :: us)) (.list (Cmd.back^[n] l) r)
  | single {ts : List Tok} {c : Cmd Word} : Derives .exec ts c → Derives .pipe ts c
  | pipe {ts us : List Tok} {l r : Cmd Word} :
      Derives .exec ts l → Derives .pipe us r → Derives .pipe (ts ++ .bar :: us) (.pipe l r)
  | block {ts us : List Tok} {c : Cmd Word} {rs : List Redirection} :
      Derives .line ts c → Redirs us rs →
        Derives .exec (.lparen :: (ts ++ .rparen :: us)) (c.redirs rs)
  | simple {ts us : List Tok} {ws : List Word} {rs rs' : List Redirection} :
      Redirs ts rs → Args us ws rs' → ws.length < maxargs →
        Derives .exec (ts ++ us) ((Cmd.exec ws).redirs (rs ++ rs'))

end Xv6.Shell
