import Mathlib.Logic.Basic

namespace Xv6

abbrev Block := Nat → UInt8

def maxOpBlocks : Nat := 10
def logBlocks : Nat := maxOpBlocks * 3
def nbuf : Nat := maxOpBlocks * 3

def pgsize : Nat := 4096

def pgRoundDown (a : Nat) : Nat := a / pgsize * pgsize

end Xv6
