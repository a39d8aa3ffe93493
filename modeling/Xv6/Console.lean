import Xv6.Lib.Ring

namespace Xv6.Console

def inputBufSize : Nat := 128

def ctrl (x : UInt8) : UInt8 := x - 64

def ctrlD : UInt8 := ctrl 68
def newline : UInt8 := 10

/-- `cons`, without its lock. The counters are 32 bits wide. -/
structure Cons where
  buf : Nat → UInt8
  r : Nat
  w : Nat
  e : Nat

def Cons.take (s : Cons) : Cons := { s with r := (s.r + 1) % 2 ^ 32 }

def Cons.untake (s : Cons) : Cons := { s with r := (s.r + (2 ^ 32 - 1)) % 2 ^ 32 }

/-- The loop of `consoleread` with the lock held and `n` characters to go; `copies` tells whether the copy of
the next one succeeds. -/
def readRun (target : Nat) (copies : Nat → Bool) : Nat → Cons → List UInt8 → Cons × List UInt8 × Bool
  | 0, s, got => (s, got, false)
  | n + 1, s, got =>
    if s.r = s.w then
      (s, got, true)
    else
      let c := s.buf (s.r % inputBufSize)
      if c = ctrlD then
        (if n + 1 < target then s.take.untake else s.take, got, false)
      else if copies got.length = false then
        (s.take, got, false)
      else if c = newline then
        (s.take, got ++ [c], false)
      else
        readRun target copies n s.take (got ++ [c])

theorem readRun_length (target : Nat) (copies : Nat → Bool) (n : Nat) (s : Cons) (got : List UInt8) :
    (readRun target copies n s got).2.1.length ≤ got.length + n := by
  induction n generalizing s got with
  | zero => exact Nat.le_refl _
  | succ n ih =>
    rw [readRun]
    dsimp only
    split_ifs
    all_goals try exact Nat.le_add_right _ _
    · rw [List.length_append, List.length_singleton]
      omega
    · refine (ih _ _).trans ?_
      rw [List.length_append, List.length_singleton]
      omega

theorem readRun_prefix (target : Nat) (copies : Nat → Bool) (n : Nat) (s : Cons) (got : List UInt8) :
    got <+: (readRun target copies n s got).2.1 := by
  induction n generalizing s got with
  | zero => exact List.prefix_refl got
  | succ n ih =>
    rw [readRun]
    dsimp only
    split_ifs
    all_goals try exact List.prefix_refl got
    · exact List.prefix_append _ _
    · exact (List.prefix_append _ _).trans (ih _ _)

end Xv6.Console
