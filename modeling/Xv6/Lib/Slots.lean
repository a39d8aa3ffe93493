import Mathlib.Data.List.Basic

namespace Xv6.Lib.Slots

variable {κ ν : Type}

abbrev Table (κ ν : Type) := List (Option (κ × ν))

/-- The slots with a key have different ones. -/
def Distinct (t : Table κ ν) : Prop :=
  ∀ ⦃i j : Nat⦄ ⦃k : κ⦄ ⦃a b : ν⦄, t[i]? = some (some (k, a)) → t[j]? = some (some (k, b)) → i = j

/-- The first empty slot, or the one past the end. -/
def freeSlot (t : Table κ ν) : Nat := (t.findIdx? (·.isNone)).getD t.length

/-- Put `v` under `k` in the first empty slot. -/
def insert (t : Table κ ν) (k : κ) (v : ν) : Table κ ν :=
  if freeSlot t < t.length then t.set (freeSlot t) (some (k, v)) else t ++ [some (k, v)]

section Lookup

variable [DecidableEq κ]

def holds (t : Table κ ν) (k : κ) (i : Nat) : Bool := (t[i]?.join.map Prod.fst) = some k

/-- The first slot with the key `k`, and the value in it. -/
def lookup (t : Table κ ν) (k : κ) : Option (Nat × ν) :=
  ((List.range t.length).find? (holds t k)).bind fun i => t[i]?.join.map fun x => (i, x.2)

end Lookup

variable {t : Table κ ν} {i : Nat} {k k' : κ} {v v' : ν}

theorem freeSlot_le (t : Table κ ν) : freeSlot t ≤ t.length := by
  unfold freeSlot
  cases h : t.findIdx? (·.isNone) with
  | none => exact Nat.le_refl _
  | some i => exact Nat.le_of_lt (List.findIdx?_eq_some_iff_findIdx_eq.mp h).1

theorem getElem?_freeSlot (h : freeSlot t < t.length) : t[freeSlot t]? = some none := by
  unfold freeSlot at h ⊢
  cases hf : t.findIdx? (·.isNone) with
  | none =>
    rw [hf] at h
    exact absurd h (Nat.lt_irrefl _)
  | some i =>
    obtain ⟨hi, hnone, -⟩ := List.findIdx?_eq_some_iff_getElem.mp hf
    rw [Option.getD_some, List.getElem?_eq_getElem hi, Option.isNone_iff_eq_none.mp hnone]

theorem freeSlot_eq (h : ∀ j, j < i → t[j]? ≠ some none) (hi : t[i]? = none ∨ t[i]? = some none)
    (hle : i ≤ t.length) : freeSlot t = i := by
  have hlow : ¬freeSlot t < i := fun hlt =>
    h _ hlt (getElem?_freeSlot (Nat.lt_of_lt_of_le hlt hle))
  have hhigh : ¬i < freeSlot t := by
    intro hlt
    rcases hi with hi | hi
    · have hlen := List.getElem?_eq_none_iff.mp hi
      have := freeSlot_le t
      omega
    · unfold freeSlot at hlt
      cases hf : t.findIdx? (·.isNone) with
      | none =>
        have hmem := List.mem_of_getElem? hi
        cases List.findIdx?_eq_none_iff.mp hf none hmem
      | some k =>
        rw [hf, Option.getD_some] at hlt
        obtain ⟨hk, -, hfirst⟩ := List.findIdx?_eq_some_iff_getElem.mp hf
        obtain ⟨hlen, hget⟩ := List.getElem?_eq_some_iff.mp hi
        have := hfirst i hlt
        rw [hget] at this
        exact this rfl
  omega

theorem getElem?_insert (t : Table κ ν) (k : κ) (v : ν) (i : Nat) :
    (insert t k v)[i]? = if i = freeSlot t then some (some (k, v)) else t[i]? := by
  unfold insert
  by_cases h : freeSlot t < t.length
  · rw [if_pos h, List.getElem?_set]
    by_cases hi : i = freeSlot t
    · rw [if_pos hi.symm, if_pos h, if_pos hi]
    · rw [if_neg (Ne.symm hi), if_neg hi]
  · have heq : freeSlot t = t.length := Nat.le_antisymm (freeSlot_le t) (Nat.le_of_not_lt h)
    rw [if_neg h, heq]
    by_cases hi : i = t.length
    · rw [if_pos hi, hi, List.getElem?_concat_length]
    · rw [if_neg hi]
      rcases Nat.lt_or_gt_of_ne hi with hlt | hgt
      · rw [List.getElem?_append_left hlt]
      · rw [List.getElem?_eq_none (by rw [List.length_append, List.length_singleton]; omega),
          List.getElem?_eq_none (by omega)]

theorem freeSlot_getElem? (t : Table κ ν) : t[freeSlot t]? = none ∨ t[freeSlot t]? = some none := by
  by_cases h : freeSlot t < t.length
  · exact .inr (getElem?_freeSlot h)
  · exact .inl (List.getElem?_eq_none (Nat.le_of_not_lt h))

variable [DecidableEq κ]

theorem holds_iff : holds t k i = true ↔ ∃ v : ν, t[i]? = some (some (k, v)) := by
  unfold holds
  rw [decide_eq_true_iff]
  rcases t[i]? with _ | _ | ⟨k', v⟩ <;> simp

theorem lookup_cases (t : Table κ ν) (k : κ) :
    (lookup t k = none ∧ ∀ (i : Nat) (v : ν), t[i]? ≠ some (some (k, v))) ∨
      ∃ i v, lookup t k = some (i, v) ∧ t[i]? = some (some (k, v)) ∧
        ∀ (j : Nat) (w : ν), j < i → t[j]? ≠ some (some (k, w)) := by
  unfold lookup
  cases hf : (List.range t.length).find? (holds t k) with
  | none =>
    refine .inl ⟨rfl, fun i v hi => ?_⟩
    have hlt : i < t.length := (List.getElem?_eq_some_iff.mp hi).1
    exact List.find?_eq_none.mp hf i (List.mem_range.mpr hlt) (holds_iff.mpr ⟨v, hi⟩)
  | some i =>
    obtain ⟨hi, -, hfirst⟩ := List.find?_range_eq_some.mp hf
    obtain ⟨v, hv⟩ := holds_iff.mp hi
    refine .inr ⟨i, v, ?_, hv, fun j w hj hw => ?_⟩
    · rw [Option.bind_some, hv]
      rfl
    · have hno := hfirst j hj
      rw [holds_iff.mpr ⟨w, hw⟩] at hno
      cases hno

theorem lookup_eq_none_iff :
    lookup t k = none ↔ ∀ (i : Nat) (v : ν), t[i]? ≠ some (some (k, v)) := by
  obtain ⟨hnone, hno⟩ | ⟨i, v, hsome, hi, -⟩ := lookup_cases t k
  · exact iff_of_true hnone hno
  · refine iff_of_false ?_ fun h => h i v hi
    rw [hsome]
    exact Option.some_ne_none _

theorem lookup_eq_some_iff (h : Distinct t) :
    lookup t k = some (i, v) ↔ t[i]? = some (some (k, v)) := by
  obtain ⟨hnone, hno⟩ | ⟨j, v', hsome, hj, -⟩ := lookup_cases t k
  · rw [hnone]
    exact iff_of_false (Option.some_ne_none _).symm (hno i v)
  · rw [hsome]
    constructor
    · rintro ⟨⟩
      exact hj
    · intro hi
      obtain rfl : j = i := h hj hi
      rw [hj] at hi
      cases hi
      rfl

theorem Distinct.insert (h : Distinct t) (hk : lookup t k = none) (v : ν) :
    Distinct (Slots.insert t k v) := by
  have hno := lookup_eq_none_iff.mp hk
  intro i j k' a b hi hj
  rw [getElem?_insert] at hi hj
  split at hi <;> split at hj
  · next hi' hj' => exact hi'.trans hj'.symm
  · cases hi
    exact absurd hj (hno j b)
  · cases hj
    exact absurd hi (hno i a)
  · exact h hi hj

theorem lookup_insert (h : Distinct t) (hk : lookup t k = none) (v : ν) (k' : κ) :
    lookup (insert t k v) k' = if k' = k then some (freeSlot t, v) else lookup t k' := by
  have hd := h.insert hk v
  by_cases hkk : k' = k
  · rw [if_pos hkk, lookup_eq_some_iff hd, getElem?_insert, if_pos rfl, hkk]
  · rw [if_neg hkk]
    obtain ⟨hnone, hno⟩ | ⟨i, v', hsome, hi, -⟩ := lookup_cases t k'
    · rw [hnone, lookup_eq_none_iff]
      intro i a hi
      rw [getElem?_insert] at hi
      split at hi
      · cases hi
        exact hkk rfl
      · exact hno i a hi
    · have hne : i ≠ freeSlot t := by
        rintro rfl
        rcases freeSlot_getElem? t with he | he
        · rw [he] at hi
          cases hi
        · rw [he] at hi
          cases hi
      rw [hsome, lookup_eq_some_iff hd, getElem?_insert, if_neg hne, hi]

end Xv6.Lib.Slots
