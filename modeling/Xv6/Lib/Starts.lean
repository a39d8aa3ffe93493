import Mathlib.Computability.Language

namespace Xv6.Lib

open Computability

variable {α : Type} {L : Language α} {whole : Bool} {P : α → Prop} {t : List α}

/-- A text starts with a word of the language, or is one when the whole text is asked for. -/
def Starts (L : Language α) (whole : Bool) (t : List α) : Prop :=
  ∃ v w, t = v ++ w ∧ v ∈ L ∧ (whole = true → w = [])

def letters (P : α → Prop) : Language α := { v | ∃ c, v = [c] ∧ P c }

theorem starts_one : Starts 1 false t := ⟨[], t, rfl, Language.nil_mem_one, nofun⟩

theorem starts_one_whole : Starts 1 true t ↔ t = [] := by
  constructor
  · rintro ⟨v, w, rfl, hv, hw⟩
    rw [(Language.mem_one v).mp hv, hw rfl, List.append_nil]
  · rintro rfl
    exact ⟨[], [], rfl, Language.nil_mem_one, fun _ => rfl⟩

theorem starts_letter : Starts (letters P * L) whole t ↔ ∃ c t', t = c :: t' ∧ P c ∧ Starts L whole t' := by
  constructor
  · rintro ⟨v, w, rfl, hv, hw⟩
    obtain ⟨_, ⟨c, rfl, hc⟩, u, hu, rfl⟩ := Language.mem_mul.mp hv
    exact ⟨c, u ++ w, rfl, hc, u, w, rfl, hu, hw⟩
  · rintro ⟨c, t', rfl, hc, u, w, rfl, hu, hw⟩
    exact ⟨[c] ++ u, w, rfl, Language.append_mem_mul ⟨c, rfl, hc⟩ hu, hw⟩

theorem starts_add {M : Language α} : Starts (L + M) whole t ↔ Starts L whole t ∨ Starts M whole t := by
  constructor
  · rintro ⟨v, w, ht, hv | hv, hw⟩
    · exact .inl ⟨v, w, ht, hv, hw⟩
    · exact .inr ⟨v, w, ht, hv, hw⟩
  · rintro (⟨v, w, ht, hv, hw⟩ | ⟨v, w, ht, hv, hw⟩)
    · exact ⟨v, w, ht, .inl hv, hw⟩
    · exact ⟨v, w, ht, .inr hv, hw⟩

theorem starts_star : Starts ((letters P)∗ * L) whole t ↔
    Starts L whole t ∨ ∃ c t', t = c :: t' ∧ P c ∧ Starts ((letters P)∗ * L) whole t' := by
  have hstar : (letters P)∗ * L = L + letters P * ((letters P)∗ * L) := by
    conv_lhs => rw [← Language.one_add_self_mul_kstar_eq_kstar, add_mul, one_mul, mul_assoc]
  rw [← starts_letter, ← starts_add, ← hstar]

theorem starts_somewhere : (∃ u t', t = u ++ t' ∧ Starts L whole t') ↔
    Starts L whole t ∨ ∃ c s, t = c :: s ∧ ∃ u t', s = u ++ t' ∧ Starts L whole t' := by
  constructor
  · rintro ⟨u, t', rfl, h⟩
    cases u with
    | nil => exact .inl h
    | cons c u => exact .inr ⟨c, u ++ t', rfl, u, t', rfl, h⟩
  · rintro (h | ⟨c, _, rfl, u, t', rfl, h⟩)
    · exact ⟨[], t, rfl, h⟩
    · exact ⟨c :: u, t', rfl, h⟩

end Xv6.Lib
