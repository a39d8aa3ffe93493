import Mathlib.Logic.Function.Basic

namespace Xv6.Lib

open Function

variable {σ β : Type}

/-- A pointer names a block that is in use, that no other pointer names and that is not reserved.
A block in use is reserved or named. -/
structure Owned (reserved used : β → Prop) (ptr : σ → Option β) : Prop where
  once : ∀ {i j : σ} {b : β}, ptr i = some b → ptr j = some b → i = j
  used_iff : ∀ b, used b ↔ reserved b ∨ ∃ i, ptr i = some b
  apart : ∀ {i : σ} {b : β}, ptr i = some b → ¬ reserved b

namespace Owned

variable {reserved used used' : β → Prop} {ptr : σ → Option β} {i : σ} {b : β}

theorem used_of_ptr (h : Owned reserved used ptr) (hi : ptr i = some b) : used b :=
  (h.used_iff b).mpr (.inr ⟨i, hi⟩)

theorem empty (hused : ∀ b, used b ↔ reserved b) : Owned reserved used fun _ : σ => none :=
  ⟨nofun, fun b => (hused b).trans (or_iff_left nofun).symm, nofun⟩

theorem drop (h : Owned reserved used ptr) (S : σ → Prop) [DecidablePred S]
    (hused : ∀ b, used' b ↔ used b ∧ ∀ i, S i → ptr i ≠ some b) :
    Owned reserved used' fun i => if S i then none else ptr i := by
  constructor
  · intro i j b hi hj
    obtain ⟨-, hi⟩ := Option.ite_none_left_eq_some.mp hi
    obtain ⟨-, hj⟩ := Option.ite_none_left_eq_some.mp hj
    exact h.once hi hj
  · intro b
    rw [hused, h.used_iff]
    constructor
    · rintro ⟨hr | ⟨i, hi⟩, hS⟩
      · exact .inl hr
      · exact .inr ⟨i, Option.ite_none_left_eq_some.mpr ⟨fun hs => hS i hs hi, hi⟩⟩
    · rintro (hr | ⟨i, hi⟩)
      · exact ⟨.inl hr, fun i _ hi => h.apart hi hr⟩
      · obtain ⟨hs, hi⟩ := Option.ite_none_left_eq_some.mp hi
        exact ⟨.inr ⟨i, hi⟩, fun j hj hjb => hs (h.once hjb hi ▸ hj)⟩
  · intro i b hi
    exact h.apart (Option.ite_none_left_eq_some.mp hi).2

variable [DecidableEq σ]

theorem fill (h : Owned reserved used ptr) (hi : ptr i = none) (hb : ¬ used b)
    (hused : ∀ c, used' c ↔ c = b ∨ used c) :
    Owned reserved used' (update ptr i (some b)) := by
  have hold : ∀ {j c}, ptr j = some c → j ≠ i ∧ c ≠ b := by
    intro j c hj
    exact ⟨fun he => by simp [he, hi] at hj, fun he => hb (he ▸ h.used_of_ptr hj)⟩
  constructor
  · intro j k c hj hk
    rw [update_apply] at hj hk
    split at hj <;> split at hk
    · next hji hki => exact hji.trans hki.symm
    · exact absurd (Option.some.inj hj).symm (hold hk).2
    · exact absurd (Option.some.inj hk).symm (hold hj).2
    · exact h.once hj hk
  · intro c
    rw [hused, h.used_iff]
    constructor
    · rintro (rfl | hr | ⟨j, hj⟩)
      · exact .inr ⟨i, update_self i _ _⟩
      · exact .inl hr
      · exact .inr ⟨j, by rw [update_of_ne (hold hj).1, hj]⟩
    · rintro (hr | ⟨j, hj⟩)
      · exact .inr (.inl hr)
      · rw [update_apply] at hj
        split at hj
        · exact .inl (Option.some.inj hj).symm
        · exact .inr (.inr ⟨j, hj⟩)
  · intro j c hj
    rw [update_apply] at hj
    split at hj
    · cases hj
      exact fun hr => hb ((h.used_iff b).mpr (.inl hr))
    · exact h.apart hj

theorem clear (h : Owned reserved used ptr) (hi : ptr i = some b) (hused : ∀ c, used' c ↔ c ≠ b ∧ used c) :
    Owned reserved used' (update ptr i none) := by
  have hold : ∀ {j c}, update ptr i none j = some c → ptr j = some c ∧ j ≠ i := by
    intro j c hj
    rw [update_apply] at hj
    split at hj
    · cases hj
    · next hne => exact ⟨hj, hne⟩
  constructor
  · intro j k c hj hk
    exact h.once (hold hj).1 (hold hk).1
  · intro c
    rw [hused, h.used_iff]
    constructor
    · rintro ⟨hc, hr | ⟨j, hj⟩⟩
      · exact .inl hr
      · refine .inr ⟨j, ?_⟩
        rw [update_of_ne, hj]
        intro he
        subst he
        exact hc (Option.some.inj (hj.symm.trans hi))
    · rintro (hr | ⟨j, hj⟩)
      · exact ⟨fun he => h.apart hi (he ▸ hr), .inl hr⟩
      · obtain ⟨hj, hne⟩ := hold hj
        exact ⟨fun he => hne (h.once hj (he ▸ hi)), .inr ⟨j, hj⟩⟩
  · intro j c hj
    exact h.apart (hold hj).1

end Owned

end Xv6.Lib
