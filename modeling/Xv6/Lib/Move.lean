import Mathlib.Logic.Function.Basic

namespace Xv6.Lib

open Function

variable {α : Type} {dst n src : Nat}

/-- A memory after `n` cells have been moved from `src` to `dst` at once. -/
def moved (dst src n : Nat) (mem : Nat → α) : Nat → α :=
  fun a => if dst ≤ a ∧ a < dst + n then mem (src + (a - dst)) else mem a

theorem moved_in {i : Nat} (mem : Nat → α) (hi : i < n) : moved dst src n mem (dst + i) = mem (src + i) := by
  rw [moved, if_pos (by omega), Nat.add_sub_cancel_left]

theorem moved_out {a : Nat} (mem : Nat → α) (ha : a < dst ∨ dst + n ≤ a) :
    moved dst src n mem a = mem a := if_neg (by omega)

theorem moved_zero (dst src : Nat) (mem : Nat → α) : moved dst src 0 mem = mem := by
  funext a
  exact moved_out mem (by omega)

/-- Cell by cell, from the first to the last. -/
def copyUp : Nat → Nat → Nat → (Nat → α) → Nat → α
  | 0, _, _, mem => mem
  | n + 1, dst, src, mem => copyUp n (dst + 1) (src + 1) (update mem dst (mem src))

/-- Cell by cell, from the last to the first; `dst` and `src` are the ends of the ranges. -/
def copyDown : Nat → Nat → Nat → (Nat → α) → Nat → α
  | 0, _, _, mem => mem
  | n + 1, dst, src, mem => copyDown n (dst - 1) (src - 1) (update mem (dst - 1) (mem (src - 1)))

theorem copyUp_eq_moved (mem : Nat → α) (h : dst ≤ src ∨ src + n ≤ dst) :
    copyUp n dst src mem = moved dst src n mem := by
  induction n generalizing dst src mem with
  | zero => exact (moved_zero dst src mem).symm
  | succ n ih =>
    rw [copyUp, ih _ (by omega)]
    funext a
    obtain ha | rfl | ha : a < dst ∨ a = dst ∨ dst < a := Nat.lt_trichotomy a dst
    · rw [moved_out _ (by omega), moved_out _ (by omega), update_of_ne (by omega)]
    · rw [moved_out _ (by omega), update_self, moved, if_pos (by omega), Nat.sub_self, Nat.add_zero]
    · obtain ⟨i, rfl⟩ : ∃ i, a = dst + 1 + i := ⟨a - (dst + 1), by omega⟩
      by_cases hi : i < n
      · -- the cell that is read has not been written yet
        have hsrc : src + 1 + i ≠ dst := by omega
        rw [moved_in _ hi, update_of_ne hsrc, Nat.add_assoc dst, moved_in _ (by omega), Nat.add_assoc]
      · rw [moved_out _ (by omega), moved_out _ (by omega), update_of_ne (by omega)]

theorem copyDown_eq_moved (mem : Nat → α) (h : src ≤ dst ∨ dst + n ≤ src) :
    copyDown n (dst + n) (src + n) mem = moved dst src n mem := by
  induction n generalizing mem with
  | zero => exact (moved_zero dst src mem).symm
  | succ n ih =>
    have hd : dst + (n + 1) - 1 = dst + n := by omega
    have hs : src + (n + 1) - 1 = src + n := by omega
    rw [copyDown, hd, hs, ih _ (by omega)]
    funext a
    by_cases hin : dst ≤ a ∧ a < dst + n
    · obtain ⟨i, rfl⟩ : ∃ i, a = dst + i := ⟨a - dst, by omega⟩
      have hsrc : src + i ≠ dst + n := by omega
      rw [moved_in _ (by omega), moved_in _ (by omega), update_of_ne hsrc]
    · by_cases hlast : a = dst + n
      · subst hlast
        rw [moved_out _ (by omega), update_self, moved_in _ (by omega)]
      · rw [moved_out _ (by omega), moved_out _ (by omega), update_of_ne hlast]

def cells (mem : Nat → α) (a n : Nat) : List α := (List.range n).map fun i => mem (a + i)

section Cells

variable {mem mem' : Nat → α} {a b n k : Nat}

theorem cells_length : (cells mem a n).length = n := by
  rw [cells, List.length_map, List.length_range]

theorem cells_congr (h : ∀ x, a ≤ x → x < a + n → mem' x = mem x) : cells mem' a n = cells mem a n :=
  List.map_congr_left fun i hi => h _ (Nat.le_add_right a i) (Nat.add_lt_add_left (List.mem_range.mp hi) a)

theorem cells_add : cells mem a (n + k) = cells mem a n ++ cells mem (a + n) k := by
  rw [cells, List.range_add, List.map_append, List.map_map]
  congr 1
  exact List.map_congr_left fun i _ => congrArg mem (Nat.add_assoc a n i).symm

theorem cells_one : cells mem a 1 = [mem a] := rfl

theorem cells_cut {c : Nat} (hac : a ≤ c) (hcb : c < b) :
    cells mem a (b - a) = cells mem a (c - a) ++ mem c :: cells mem (c + 1) (b - (c + 1)) := by
  have hlen : b - a = (c - a) + (1 + (b - (c + 1))) := by omega
  have hc : a + (c - a) = c := by omega
  rw [hlen, cells_add, cells_add, hc, cells_one, List.singleton_append]

theorem cells_update_of_notMem {x : Nat} {v : α} (h : x < a ∨ a + n ≤ x) :
    cells (update mem x v) a n = cells mem a n :=
  cells_congr fun y hlo hhi => update_of_ne (by omega) ..

theorem cells_moved (dst src : Nat) : cells (moved dst src n mem) dst n = cells mem src n :=
  List.map_congr_left fun _ hi => moved_in mem (List.mem_range.mp hi)

def store (mem : Nat → α) (a : Nat) (l : List α) : Nat → α := fun x =>
  if a ≤ x then (l[x - a]?).getD (mem x) else mem x

theorem cells_store (l : List α) : cells (store mem a l) a l.length = l := by
  apply List.ext_getElem
  · rw [cells_length]
  · intro i hi hi'
    simp only [cells, List.getElem_map, List.getElem_range]
    rw [store, if_pos (Nat.le_add_right a i), Nat.add_sub_cancel_left, List.getElem?_eq_getElem hi', Option.getD_some]

theorem cells_store_below (l : List α) (h : b + n ≤ a) : cells (store mem a l) b n = cells mem b n :=
  cells_congr fun _ _ hx => if_neg (by omega)

end Cells

end Xv6.Lib
