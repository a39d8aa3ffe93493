import Mathlib.Data.List.Basic

namespace Xv6.Lib.Runs

variable {α : Type} {D S : α → Bool} {t : List α} {c : α} {i j k : Nat} {R R' : Nat → Nat → Prop}

def Holds (P : α → Bool) (t : List α) (k : Nat) : Prop := ∃ c, t[k]? = some c ∧ P c = true

theorem Holds.lt {P : α → Bool} (h : Holds P t k) : k < t.length := by
  obtain ⟨c, hc, -⟩ := h
  exact (List.getElem?_eq_some_iff.mp hc).1

theorem holds_append {P : α → Bool} (hk : k < t.length) : Holds P (t ++ [c]) k ↔ Holds P t k := by
  rw [Holds, Holds, List.getElem?_append_left hk]

theorem holds_last {P : α → Bool} : Holds P (t ++ [c]) t.length ↔ P c = true := by
  rw [Holds, List.getElem?_append_right (Nat.le_refl _), Nat.sub_self, List.getElem?_cons_zero]
  constructor
  · rintro ⟨b, hb, hP⟩
    rw [Option.some.inj hb]
    exact hP
  · exact fun hP => ⟨c, rfl, hP⟩

/-- The letters from `i` to `j` are in `D`, and at `i` the text starts or a letter of `S` ends. -/
structure Word (D S : α → Bool) (t : List α) (i j : Nat) : Prop where
  lt : i < j
  letters : ∀ k, i ≤ k → k < j → Holds D t k
  start : ∀ k, k + 1 = i → Holds S t k

/-- A run of `D` between letters of `S` or the ends of the text. -/
def Run (D S : α → Bool) (t : List α) (i j : Nat) : Prop := Word D S t i j ∧ (j = t.length ∨ Holds S t j)

/-- A run that a letter of `S` has ended. -/
def Closed (D S : α → Bool) (t : List α) (i j : Nat) : Prop := Word D S t i j ∧ Holds S t j

def Boundary (S : α → Bool) (t : List α) : Prop := ∀ k, k + 1 = t.length → Holds S t k

theorem boundary_nil : Boundary S ([] : List α) := fun _ hk => absurd hk (Nat.succ_ne_zero _)

theorem boundary_append : Boundary S (t ++ [c]) ↔ S c = true := by
  rw [← @holds_last α t c S]
  constructor
  · intro h
    exact h t.length (by rw [List.length_append, List.length_singleton])
  · intro h k hk
    rw [List.length_append, List.length_singleton] at hk
    rw [Nat.succ.inj hk]
    exact h

theorem word_append (hj : j ≤ t.length) : Word D S (t ++ [c]) i j ↔ Word D S t i j := by
  constructor
  · intro h
    have hlt := h.lt
    exact ⟨h.lt, fun k hi hk => (holds_append (by omega)).mp (h.letters k hi hk),
      fun k hk => (holds_append (by omega)).mp (h.start k hk)⟩
  · intro h
    have hlt := h.lt
    exact ⟨h.lt, fun k hi hk => (holds_append (by omega)).mpr (h.letters k hi hk),
      fun k hk => (holds_append (by omega)).mpr (h.start k hk)⟩

theorem word_last : Word D S (t ++ [c]) i (t.length + 1) ↔
    D c = true ∧ (Word D S t i t.length ∨ i = t.length ∧ Boundary S t) := by
  constructor
  · intro h
    have hlt := h.lt
    refine ⟨holds_last.mp (h.letters t.length (by omega) (Nat.lt_succ_self _)), ?_⟩
    by_cases hi : i = t.length
    · exact .inr ⟨hi, fun k hk => (holds_append (by omega)).mp (h.start k (by omega))⟩
    · exact .inl ⟨by omega, fun k hik hk => (holds_append hk).mp (h.letters k hik (by omega)),
        fun k hk => (holds_append (by omega)).mp (h.start k hk)⟩
  · rintro ⟨hc, h | ⟨rfl, h⟩⟩
    · have hlt := h.lt
      refine ⟨by omega, fun k hik hk => ?_, fun k hk => (holds_append (by omega)).mpr (h.start k hk)⟩
      by_cases hkt : k = t.length
      · rw [hkt]
        exact holds_last.mpr hc
      · exact (holds_append (by omega)).mpr (h.letters k hik (by omega))
    · refine ⟨Nat.lt_succ_self _, fun k hik hk => ?_, fun k hk => (holds_append (by omega)).mpr (h k hk)⟩
      obtain rfl : k = t.length := by omega
      exact holds_last.mpr hc

theorem closed_append : Closed D S (t ++ [c]) i j ↔
    Closed D S t i j ∨ S c = true ∧ j = t.length ∧ Word D S t i t.length := by
  constructor
  · rintro ⟨hw, hs⟩
    have hlt := hs.lt
    rw [List.length_append, List.length_singleton] at hlt
    by_cases hj : j = t.length
    · subst hj
      exact .inr ⟨holds_last.mp hs, rfl, (word_append (Nat.le_refl _)).mp hw⟩
    · exact .inl ⟨(word_append (by omega)).mp hw, (holds_append (by omega)).mp hs⟩
  · rintro (⟨hw, hs⟩ | ⟨hc, rfl, hw⟩)
    · have hlt := hs.lt
      exact ⟨(word_append (by omega)).mpr hw, (holds_append hlt).mpr hs⟩
    · exact ⟨(word_append (Nat.le_refl _)).mpr hw, holds_last.mpr hc⟩

theorem run_iff : Run D S t i j ↔ Closed D S t i j ∨ j = t.length ∧ Word D S t i t.length := by
  constructor
  · rintro ⟨hw, rfl | hs⟩
    · exact .inr ⟨rfl, hw⟩
    · exact .inl ⟨hw, hs⟩
  · rintro (⟨hw, hs⟩ | ⟨rfl, hw⟩)
    · exact ⟨hw, .inr hs⟩
    · exact ⟨hw, .inl rfl⟩

theorem Word.unique (hDS : ∀ c, D c = true → S c = false) {i' : Nat} (h : Word D S t i j) (h' : Word D S t i' j) :
    i = i' := by
  have hle : ∀ {i i'}, Word D S t i j → Word D S t i' j → i' ≤ i := by
    intro i i' h h'
    by_contra hlt
    obtain ⟨k, rfl⟩ : ∃ k, i' = k + 1 := ⟨i' - 1, by omega⟩
    obtain ⟨c, hc, hS⟩ := h'.start k rfl
    obtain ⟨b, hb, hD⟩ := h.letters k (by omega) (by have := h'.lt; omega)
    rw [hDS c (Option.some.inj (hb.symm.trans hc) ▸ hD)] at hS
    exact absurd hS (by simp)
  exact Nat.le_antisymm (hle h' h) (hle h h')

structure Enumerates (R : Nat → Nat → Prop) (l : List (Nat × Nat)) : Prop where
  sorted : l.Pairwise fun a b => a.2 < b.2
  mem : ∀ i j, (i, j) ∈ l ↔ R i j

theorem Enumerates.congr {l : List (Nat × Nat)} (h : Enumerates R l)
    (hR : ∀ i j, R' i j ↔ R i j) : Enumerates R' l :=
  ⟨h.sorted, fun i j => (h.mem i j).trans (hR i j).symm⟩

theorem Enumerates.append {l : List (Nat × Nat)} (h : Enumerates R l) (i j : Nat)
    (hlt : ∀ a b, R a b → b < j) (hR : ∀ a b, R' a b ↔ R a b ∨ b = j ∧ a = i) : Enumerates R' (l ++ [(i, j)]) := by
  refine ⟨?_, fun a b => ?_⟩
  · rw [List.pairwise_append]
    refine ⟨h.sorted, List.pairwise_singleton .., ?_⟩
    rintro ⟨a, b⟩ hab p hp
    rw [List.mem_singleton.mp hp]
    exact hlt a b ((h.mem a b).mp hab)
  · rw [List.mem_append, List.mem_singleton, h.mem, hR, Prod.mk.injEq, and_comm (a := a = i)]

end Xv6.Lib.Runs
