import Mathlib.Data.BitVec
import Xv6.Lib.Move

namespace Xv6.Memmove

open Xv6.Lib

def memmove (dst src : Nat) (n : BitVec 32) (mem : Nat → UInt8) : Nat → UInt8 :=
  if n.toNat = 0 then mem
  else if src < dst ∧ dst < src + n.toNat then copyDown n.toNat (dst + n.toNat) (src + n.toNat) mem
  else copyUp n.toNat dst src mem

/-- `memmove` of the user library, with a signed length. -/
def userMemmove (dst src : Nat) (n : BitVec 32) (mem : Nat → UInt8) : Nat → UInt8 :=
  if dst < src then copyUp n.toInt.toNat dst src mem
  else copyDown n.toInt.toNat (dst + n.toInt.toNat) (src + n.toInt.toNat) mem

variable {dst src : Nat} {n : BitVec 32} {mem : Nat → UInt8}

theorem memmove_eq_moved : memmove dst src n mem = moved dst src n.toNat mem := by
  unfold memmove
  split
  · next h0 => rw [h0, moved_zero]
  · split
    · exact copyDown_eq_moved mem (by omega)
    · exact copyUp_eq_moved mem (by omega)

theorem userMemmove_eq_moved (hn : n.toNat < 2 ^ 31) : userMemmove dst src n mem = moved dst src n.toNat mem := by
  have hint : n.toInt.toNat = n.toNat := by
    rw [BitVec.toInt_eq_toNat_of_lt (by omega), Int.toNat_natCast]
  unfold userMemmove
  rw [hint]
  split
  · exact copyUp_eq_moved mem (by omega)
  · exact copyDown_eq_moved mem (by omega)

/-- However the two ranges lie, both functions move the bytes that the source held and change nothing else. -/
theorem memmoves_agree (hn : n.toNat < 2 ^ 31) :
    (∀ i, i < n.toNat → memmove dst src n mem (dst + i) = mem (src + i)) ∧
      (∀ a, a < dst ∨ dst + n.toNat ≤ a → memmove dst src n mem a = mem a) ∧
      userMemmove dst src n mem = memmove dst src n mem := by
  rw [userMemmove_eq_moved hn, memmove_eq_moved]
  exact ⟨fun i hi => moved_in mem hi, fun a ha => moved_out mem ha, rfl⟩

theorem memmoves_agree_overlap :
    userMemmove 101 100 3 (fun a => UInt8.ofNat a) 103 = 102 ∧
      userMemmove 99 100 3 (fun a => UInt8.ofNat a) 99 = 100 := by
  have hup := @memmoves_agree 101 100 3 (fun a => UInt8.ofNat a) (by decide)
  have hdown := @memmoves_agree 99 100 3 (fun a => UInt8.ofNat a) (by decide)
  exact ⟨(congrFun hup.2.2 103).trans (hup.1 2 (by decide)), (congrFun hdown.2.2 99).trans (hdown.1 0 (by decide))⟩

end Xv6.Memmove
