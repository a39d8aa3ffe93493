import Mathlib.Logic.Function.Basic
import Mathlib.Tactic.Ring

namespace Xv6.Lib.Words

open Function

/-- The little-endian number spelled by `w` bytes from offset `off`. -/
def getLE (f : Nat → UInt8) (off : Nat) : Nat → Nat
  | 0 => 0
  | w + 1 => (f off).toNat + 256 * getLE f (off + 1) w

/-- Store the low `w` bytes of `v` from offset `off`, low byte first. -/
def putLE (f : Nat → UInt8) (off v : Nat) : Nat → Nat → UInt8
  | 0 => f
  | w + 1 => update (putLE f (off + 1) (v / 256) w) off (UInt8.ofNat v)

theorem getLE_congr {f g : Nat → UInt8} {off w : Nat}
    (h : ∀ k, off ≤ k → k < off + w → f k = g k) : getLE f off w = getLE g off w := by
  induction w generalizing off with
  | zero => rfl
  | succ w ih =>
    have hrest : getLE f (off + 1) w = getLE g (off + 1) w :=
      ih (fun k hk hlt => h k (by omega) (by omega))
    simp only [getLE, h off le_rfl (by omega), hrest]

theorem putLE_outside (f : Nat → UInt8) (off v w k : Nat) (hk : k < off ∨ off + w ≤ k) :
    putLE f off v w k = f k := by
  induction w generalizing off v with
  | zero => rfl
  | succ w ih =>
    have hne : k ≠ off := by omega
    simp only [putLE, update_of_ne hne]
    exact ih (off + 1) (v / 256) (by omega)

theorem getLE_putLE (f : Nat → UInt8) (off v w : Nat) (hv : v < 256 ^ w) :
    getLE (putLE f off v w) off w = v := by
  induction w generalizing off v with
  | zero => simp only [pow_zero] at hv; simp only [getLE]; omega
  | succ w ih =>
    have hrest : getLE (putLE f off v (w + 1)) (off + 1) w =
        getLE (putLE f (off + 1) (v / 256) w) (off + 1) w := by
      apply getLE_congr
      intro k hk _
      simp only [putLE, update_of_ne (show k ≠ off by omega)]
    have hlow : (putLE f off v (w + 1) off).toNat = v % 256 := by
      simp only [putLE, update_self, UInt8.toNat_ofNat']
    rw [pow_succ] at hv
    rw [getLE, hlow, hrest, ih (off + 1) (v / 256) (by omega)]
    omega

theorem getLE_putLE_apart (f : Nat → UInt8) (off v w off' w' : Nat) (h : off' + w' ≤ off ∨ off + w ≤ off') :
    getLE (putLE f off v w) off' w' = getLE f off' w' := by
  apply getLE_congr
  intro k hk hlt
  exact putLE_outside f off v w k (by omega)

end Xv6.Lib.Words
