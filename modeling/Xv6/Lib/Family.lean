import Mathlib.Algebra.BigOperators.Group.Finset.Basic
import Mathlib.Algebra.BigOperators.Group.Finset.Piecewise
import Mathlib.Algebra.Order.BigOperators.Group.Finset
import Mathlib.Data.Fintype.Basic

namespace Xv6.Lib

open Finset Function

variable {ι α : Type}

variable [Fintype ι]

def total (w : α → Nat) (st : ι → α) : Nat := ∑ p, w (st p)

theorem le_total (w : α → Nat) (st : ι → α) (p : ι) : w (st p) ≤ total w st :=
  single_le_sum (f := fun q => w (st q)) (fun _ _ => Nat.zero_le _) (mem_univ p)

theorem total_eq_zero (w : α → Nat) (st : ι → α) : total w st = 0 ↔ ∀ p, w (st p) = 0 := by
  simp [total]

theorem total_ite (P : α → Prop) [DecidablePred P] (st : ι → α) :
    total (fun a => if P a then 1 else 0) st = (univ.filter (fun p => P (st p))).card :=
  (card_filter _ _).symm

variable [DecidableEq ι]

omit [Fintype ι] in
theorem sum_change {S : Finset ι} {f g : ι → Nat} {p : ι} (hp : p ∈ S) (h : ∀ q ∈ S, q ≠ p → g q = f q) :
    ∑ q ∈ S, g q + f p = ∑ q ∈ S, f q + g p := by
  rw [← add_sum_erase S g hp, ← add_sum_erase S f hp]
  have hrest : ∑ q ∈ S.erase p, g q = ∑ q ∈ S.erase p, f q :=
    sum_congr rfl (fun q hq => h q (mem_of_mem_erase hq) (ne_of_mem_erase hq))
  omega

theorem total_update (w : α → Nat) (st : ι → α) (p : ι) (a : α) :
    total w (update st p a) + w (st p) = total w st + w a := by
  have h := sum_change (mem_univ p) (f := fun q => w (st q)) (g := fun q => w (update st p a q))
    (fun q _ hq => by rw [update_of_ne hq])
  simpa only [total, update_self] using h

theorem add_le_total (w : α → Nat) (st : ι → α) {p q : ι} (h : p ≠ q) :
    w (st p) + w (st q) ≤ total w st := by
  unfold total
  rw [← add_sum_erase univ (fun r => w (st r)) (mem_univ p)]
  exact Nat.add_le_add_left (single_le_sum (f := fun r => w (st r)) (fun _ _ => Nat.zero_le _)
    (mem_erase.mpr ⟨h.symm, mem_univ q⟩)) _

end Xv6.Lib
