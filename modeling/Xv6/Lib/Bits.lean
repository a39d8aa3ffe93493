import Mathlib.Data.UInt
import Mathlib.Logic.Function.Basic

namespace Xv6.Lib.Bits

open Function

def mask (k : Nat) : UInt8 := 1 <<< UInt8.ofNat k

def bitAt (mem : Nat → UInt8) (n : Nat) : Bool := mem (n / 8) &&& mask (n % 8) ≠ 0

def setBit (mem : Nat → UInt8) (n : Nat) : Nat → UInt8 :=
  update mem (n / 8) (mem (n / 8) ||| mask (n % 8))

def clearBit (mem : Nat → UInt8) (n : Nat) : Nat → UInt8 :=
  update mem (n / 8) (mem (n / 8) &&& ~~~ mask (n % 8))

variable {mem : Nat → UInt8} {k n : Nat} {x : UInt8}

theorem mask_and_mask (hk : k < 8) (hn : n < 8) : mask k &&& mask n = 0 ↔ k ≠ n := by
  have hall : ∀ k n : Fin 8, mask k &&& mask n = 0 ↔ k.1 ≠ n.1 := by decide
  exact hall ⟨k, hk⟩ ⟨n, hn⟩

theorem not_mask_and_mask (hk : k < 8) (hn : n < 8) : ~~~ mask k &&& mask n = if k = n then 0 else mask n := by
  have hall : ∀ k n : Fin 8, ~~~ mask k &&& mask n = if k.1 = n.1 then 0 else mask n := by decide
  exact hall ⟨k, hk⟩ ⟨n, hn⟩

theorem or_mask_ne_zero (hk : k < 8) (hn : n < 8) :
    (x ||| mask k) &&& mask n ≠ 0 ↔ k = n ∨ x &&& mask n ≠ 0 := by
  have hor : ∀ y z : UInt8, (x ||| y) &&& z = (x &&& z) ||| (y &&& z) := fun y z => by
    apply UInt8.eq_of_toBitVec_eq
    ext i
    simp [Bool.and_or_distrib_right]
  rw [hor, ne_eq, UInt8.or_eq_zero_iff, mask_and_mask hk hn, not_and_or, not_not, or_comm]

theorem and_not_mask_ne_zero (hk : k < 8) (hn : n < 8) :
    (x &&& ~~~ mask k) &&& mask n ≠ 0 ↔ k ≠ n ∧ x &&& mask n ≠ 0 := by
  rw [UInt8.and_assoc, not_mask_and_mask hk hn]
  split
  · next h => exact iff_of_false (by simp) fun hc => hc.1 h
  · next h => exact (and_iff_right h).symm

theorem or_mask_and_not_mask (h : x &&& mask k = 0) : (x ||| mask k) &&& ~~~ mask k = x := by
  apply UInt8.eq_of_toBitVec_eq
  ext i hi
  have hbit := congrArg (fun y : UInt8 => y.toBitVec.getLsbD i) h
  simp only [UInt8.toBitVec_and, BitVec.getLsbD_and] at hbit
  simp only [UInt8.toBitVec_and, UInt8.toBitVec_or, UInt8.toBitVec_not, BitVec.getElem_and, BitVec.getElem_or,
    BitVec.getElem_not]
  rw [BitVec.getLsbD_eq_getElem hi, BitVec.getLsbD_eq_getElem hi] at hbit
  cases hx : x.toBitVec[i] <;> cases hm : (mask k).toBitVec[i] <;> simp_all

theorem bitAt_setBit : bitAt (setBit mem n) k = (decide (k = n) || bitAt mem k) := by
  rw [bitAt, bitAt, setBit, ← Bool.decide_or, decide_eq_decide]
  by_cases hb : k / 8 = n / 8
  · rw [hb, update_self, or_mask_ne_zero (Nat.mod_lt _ (by decide)) (Nat.mod_lt _ (by decide)), ← hb]
    refine or_congr_left ?_
    omega
  · rw [update_of_ne hb, or_iff_right]
    rintro rfl
    exact hb rfl

theorem bitAt_clearBit : bitAt (clearBit mem n) k = (decide (k ≠ n) && bitAt mem k) := by
  rw [bitAt, bitAt, clearBit, ← Bool.decide_and, decide_eq_decide]
  by_cases hb : k / 8 = n / 8
  · rw [hb, update_self, and_not_mask_ne_zero (Nat.mod_lt _ (by decide)) (Nat.mod_lt _ (by decide)), ← hb]
    refine and_congr_left fun _ => ?_
    omega
  · rw [update_of_ne hb, and_iff_right]
    rintro rfl
    exact hb rfl

theorem clearBit_setBit (h : bitAt mem n = false) : clearBit (setBit mem n) n = mem := by
  have hzero : mem (n / 8) &&& mask (n % 8) = 0 := not_not.mp (of_decide_eq_false h)
  rw [clearBit, setBit, update_self, update_idem, or_mask_and_not_mask hzero,
    update_eq_self]

end Xv6.Lib.Bits
