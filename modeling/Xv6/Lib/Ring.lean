import Mathlib.Data.Nat.ModEq
import Mathlib.Logic.Function.Basic

namespace Xv6.Lib

open Function

/-- The `N` slots of `ring` hold the queue `q` between the counters `r` and `w`, which wrap at `M`. -/
structure RingHolds {α : Type} (M N : Nat) (ring : Nat → α) (r w : Nat) (q : List α) : Prop where
  read : r < M
  written : w = (r + q.length) % M
  fits : q.length ≤ N
  slots : ∀ k x, q[k]? = some x → ring ((r + k) % M % N) = x

namespace RingHolds

variable {α : Type} {M N r w : Nat} {ring : Nat → α} {q : List α} {x : α}

theorem empty (h0 : 0 < M) : RingHolds M N ring 0 0 ([] : List α) :=
  ⟨h0, (Nat.zero_mod M).symm, Nat.zero_le N, fun _ _ hk => by simp at hk⟩

section

variable (h : RingHolds M N ring r w q)
include h

theorem count (hM : N < M) : (w + M - r) % M = q.length := by
  have hr := h.read
  have hq : q.length < M := lt_of_le_of_lt h.fits hM
  rw [h.written]
  by_cases hw : r + q.length < M
  · rw [Nat.mod_eq_of_lt hw, show r + q.length + M - r = q.length + M by omega, Nat.add_mod_right,
      Nat.mod_eq_of_lt hq]
  · have hwrap : (r + q.length) % M = r + q.length - M := by
      rw [Nat.mod_eq_sub_mod (Nat.not_lt.mp hw), Nat.mod_eq_of_lt (by omega)]
    rw [hwrap, show r + q.length - M + M - r = q.length by omega, Nat.mod_eq_of_lt hq]

theorem eq_nil_iff (hM : N < M) : r = w ↔ q = [] := by
  have hc := h.count hM
  have hr := h.read
  constructor
  · rintro rfl
    rw [Nat.add_sub_cancel_left, Nat.mod_self] at hc
    exact List.length_eq_zero_iff.mp hc.symm
  · rintro rfl
    rw [h.written, List.length_nil, add_zero, Nat.mod_eq_of_lt hr]

theorem full_iff (hM : N < M) : w = (r + N) % M ↔ q.length = N := by
  have hr := h.read
  have hfit := h.fits
  rw [h.written]
  constructor
  · intro he
    have := Nat.ModEq.add_left_cancel' r he
    exact Nat.ModEq.eq_of_lt_of_lt this (by omega) hM
  · intro he
    rw [he]

theorem slot_ne (hd : N ∣ M) (hlen : q.length < N) {k : Nat} (hk : k < q.length) : (r + k) % M % N ≠ w % N := by
  rw [h.written, Nat.mod_mod_of_dvd _ hd, Nat.mod_mod_of_dvd _ hd]
  intro he
  have hmod : k ≡ q.length [MOD N] := Nat.ModEq.add_left_cancel' r he
  have := Nat.ModEq.eq_of_lt_of_lt hmod (by omega) hlen
  omega

theorem write (hd : N ∣ M) (hlen : q.length < N) :
    RingHolds M N (update ring (w % N) x) r w q := by
  refine ⟨h.read, h.written, h.fits, fun k y hk => ?_⟩
  have hlt : k < q.length := (List.getElem?_eq_some_iff.mp hk).1
  rw [update_of_ne (h.slot_ne hd hlen hlt)]
  exact h.slots k y hk

theorem advance (hlen : q.length < N)
    (hx : ring (w % N) = x) : RingHolds M N ring r ((w + 1) % M) (q ++ [x]) := by
  refine ⟨h.read, ?_, ?_, fun k y hk => ?_⟩
  · rw [h.written, Nat.mod_add_mod, List.length_append, List.length_singleton, add_assoc]
  · rw [List.length_append, List.length_singleton]
    exact hlen
  · by_cases hlt : k < q.length
    · rw [List.getElem?_append_left hlt] at hk
      exact h.slots k y hk
    · have hlen' := (List.getElem?_eq_some_iff.mp hk).1
      rw [List.length_append, List.length_singleton] at hlen'
      obtain rfl : k = q.length := by omega
      rw [List.getElem?_append_right le_rfl, Nat.sub_self] at hk
      obtain rfl : x = y := by simpa using hk
      rw [← h.written, hx]

theorem push (hd : N ∣ M) (hlen : q.length < N) :
    RingHolds M N (update ring (w % N) x) r ((w + 1) % M) (q ++ [x]) :=
  (h.write hd hlen).advance hlen (update_self ..)

end

theorem front (h : RingHolds M N ring r w (x :: q)) : ring (r % N) = x := by
  have hx := h.slots 0 x rfl
  rwa [add_zero, Nat.mod_eq_of_lt h.read] at hx

theorem pop (h : RingHolds M N ring r w (x :: q)) : RingHolds M N ring ((r + 1) % M) w q := by
  have hr := h.read
  have hfit := h.fits
  rw [List.length_cons] at hfit
  refine ⟨Nat.mod_lt _ (by omega), ?_, by omega, fun k y hk => ?_⟩
  · rw [h.written, Nat.mod_add_mod, List.length_cons]
    congr 1
    omega
  · have hy := h.slots (k + 1) y (by simpa using hk)
    rwa [Nat.mod_add_mod, add_assoc, add_comm 1 k]

end RingHolds

end Xv6.Lib
