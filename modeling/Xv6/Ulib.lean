import Mathlib.Data.List.Basic
import Mathlib.Data.UInt

namespace Xv6.Ulib

section Strings

variable {c : UInt8} {s : List UInt8}

def deref (s : List UInt8) : UInt8 := s.headD 0

theorem ne_nil_of_deref (h : deref s ≠ 0) : s ≠ [] := by
  rintro rfl
  exact h rfl

theorem tail_lt_of_deref (h : deref s ≠ 0) : s.tail.length < s.length := by
  rw [List.length_tail]
  exact Nat.sub_lt (List.length_pos_iff.mpr (ne_nil_of_deref h)) Nat.one_pos

/-- The string at the start of a memory. -/
def cstr (s : List UInt8) : List UInt8 := s.takeWhile (· ≠ 0)

theorem cstr_eq_nil (h : deref s = 0) : cstr s = [] := by
  cases s with
  | nil => rfl
  | cons c s =>
    have hc : c = 0 := h
    rw [hc]
    rfl

theorem cstr_eq_cons (h : deref s ≠ 0) : cstr s = deref s :: cstr s.tail := by
  cases s with
  | nil => exact absurd rfl h
  | cons c s =>
    have hc : c ≠ 0 := h
    rw [cstr, List.takeWhile_cons_of_pos (by simpa using hc)]
    rfl

theorem deref_of_cstr_cons {t : List UInt8} (h : cstr s = c :: t) : deref s = c ∧ deref s ≠ 0 ∧ cstr s.tail = t := by
  by_cases h0 : deref s = 0
  · rw [cstr_eq_nil h0] at h
    exact absurd h (by simp)
  · rw [cstr_eq_cons h0] at h
    obtain ⟨hc, ht⟩ := List.cons.inj h
    exact ⟨hc, h0, ht⟩

theorem head?_cstr (hc : c ≠ 0) : (cstr s).head? = some c ↔ deref s = c := by
  by_cases h : deref s = 0
  · rw [cstr_eq_nil h, h]
    exact iff_of_false (by simp) hc.symm
  · rw [cstr_eq_cons h, List.head?_cons, Option.some_inj]

theorem cstr_append (h : 0 ∉ s) (t : List UInt8) : cstr (s ++ t) = s ++ cstr t :=
  List.takeWhile_append_of_pos fun _ hc => decide_eq_true (ne_of_mem_of_not_mem hc h)

theorem cstr_of_notMem (h : 0 ∉ s) : cstr s = s := by
  simpa [cstr] using cstr_append h []

end Strings

section Strchr

variable {c : UInt8} {l r : List UInt8}

/-- The offset of a character in a string. -/
def strchr : List UInt8 → UInt8 → Option Nat
  | [], _ => none
  | b :: s, c => if b = 0 then none else if b = c then some 0 else (strchr s c).map (· + 1)

theorem strchr_lt {s : List UInt8} {c : UInt8} {d : Nat} (h : strchr s c = some d) : d < s.length := by
  induction s generalizing d with
  | nil => exact absurd h (by simp [strchr])
  | cons b s ih =>
    rw [strchr] at h
    split at h
    · exact absurd h (by simp)
    · split at h
      · rw [← Option.some.inj h]
        exact Nat.succ_pos _
      · obtain ⟨e, he, rfl⟩ := Option.map_eq_some_iff.mp h
        exact Nat.succ_lt_succ (ih he)

theorem strchr_append (h0 : 0 ∉ l) (hl : c ∉ l) : strchr (l ++ r) c = (strchr r c).map (· + l.length) := by
  induction l with
  | nil => exact Option.map_id'.symm
  | cons b l ih =>
    have hb0 : b ≠ 0 := fun hb => h0 (hb ▸ List.mem_cons_self)
    have hbc : b ≠ c := fun hb => hl (hb ▸ List.mem_cons_self)
    rw [List.cons_append, strchr, if_neg hb0, if_neg hbc, ih (fun h => h0 (List.mem_cons_of_mem b h))
      fun h => hl (List.mem_cons_of_mem b h), Option.map_map]
    rfl

theorem strchr_of_mem (h0 : 0 ∉ l) (hl : c ∉ l) (hc : c ≠ 0) : strchr (l ++ c :: r) c = some l.length := by
  rw [strchr_append h0 hl, strchr, if_neg hc, if_pos rfl, Option.map_some, Nat.zero_add]

theorem strchr_of_notMem (h0 : 0 ∉ l) (hl : c ∉ l) : strchr (l ++ 0 :: r) c = none := by
  rw [strchr_append h0 hl, strchr, if_pos rfl, Option.map_none]

theorem strchr_none_of_notMem (hl : c ∉ l) : strchr l c = none := by
  induction l with
  | nil => rfl
  | cons b l ih =>
    have hbc : b ≠ c := fun hb => hl (hb ▸ List.mem_cons_self)
    rw [strchr, if_neg hbc, ih fun h => hl (List.mem_cons_of_mem b h), Option.map_none, ite_self]

end Strchr

section Atoi

def int32 (n : Int) : Int := n.bmod 4294967296

def isDigit (c : UInt8) : Bool := 48 ≤ c ∧ c ≤ 57

def atoiLoop : List UInt8 → Int → Int
  | [], n => n
  | c :: s, n => if isDigit c then atoiLoop s (int32 (n * 10 + c.toNat - 48)) else n

def atoi (s : List UInt8) : Int := atoiLoop s 0

theorem int32_of_small {n : Nat} (h : n < 2147483648) : int32 n = n := by
  rw [int32, Int.bmod_eq_of_le] <;> omega

theorem int32_horner (v d : Int) : int32 (int32 v * 10 + d) = int32 (d + 10 * v) := by
  rw [int32, int32, int32, ← Int.bmod_add_bmod, Int.bmod_mul_bmod, Int.bmod_add_bmod, Int.mul_comm, Int.add_comm]

end Atoi

end Xv6.Ulib
