import Xv6.Lib.Starts
import Xv6.Ulib

namespace Xv6.Grep

open Computability Xv6.Lib Xv6.Ulib

def caret : UInt8 := 94
def dollar : UInt8 := 36
def dot : UInt8 := 46
def star : UInt8 := 42

mutual

def matchhere (re text : List UInt8) : Bool :=
  if _h : deref re = 0 then true
  else if deref re.tail = star then matchstar (deref re) re.tail.tail text
  else if deref re = dollar ∧ deref re.tail = 0 then deref text = 0
  else if deref text ≠ 0 ∧ (deref re = dot ∨ deref re = deref text) then matchhere re.tail text.tail
  else false
termination_by (re.length, text.length, 0)
decreasing_by
  · have := tail_lt_of_deref _h
    rw [List.length_tail (l := re.tail)]
    exact Prod.Lex.left _ _ (by omega)
  · exact Prod.Lex.left _ _ (tail_lt_of_deref _h)

def matchstar (c : UInt8) (re text : List UInt8) : Bool :=
  if matchhere re text then true
  else if _h : deref text ≠ 0 ∧ (deref text = c ∨ c = dot) then matchstar c re text.tail
  else false
termination_by (re.length, text.length, 1)
decreasing_by
  · exact Prod.Lex.right _ (Prod.Lex.right _ Nat.one_pos)
  · exact Prod.Lex.right _ (Prod.Lex.left _ _ (tail_lt_of_deref _h.1))

end

def matchLoop (re text : List UInt8) : Bool :=
  if matchhere re text then true
  else if _h : deref text ≠ 0 then matchLoop re text.tail
  else false
termination_by text.length
decreasing_by exact tail_lt_of_deref _h

def matchRe (re text : List UInt8) : Bool :=
  if deref re = caret then matchhere re.tail text else matchLoop re text

section Language

/-- What a pattern is made of: one character, or any number of one. -/
inductive Item where
  | one (x : UInt8)
  | star (x : UInt8)
  deriving DecidableEq

/-- A pattern that is read from left to right; it is `bound` to the end by a final `$`. -/
structure Pattern where
  items : List Item
  bound : Bool
  deriving DecidableEq

def Pattern.cons (i : Item) (p : Pattern) : Pattern := ⟨i :: p.items, p.bound⟩

def parse : List UInt8 → Pattern
  | [] => ⟨[], false⟩
  | [x] => if x = dollar then ⟨[], true⟩ else ⟨[.one x], false⟩
  | x :: s :: re => if s = star then (parse re).cons (.star x) else (parse (s :: re)).cons (.one x)

def Accepts (x c : UInt8) : Prop := x = dot ∨ x = c

def Item.lang : Item → Language UInt8
  | .one x => letters (Accepts x)
  | .star x => (letters (Accepts x))∗

def Pattern.lang (p : Pattern) : Language UInt8 := (p.items.map Item.lang).prod

def Pattern.Here (p : Pattern) (t : List UInt8) : Prop := Starts p.lang p.bound t

/-- The text holds a word of the language of the pattern: at its start after a `^`, and up to its end before a
final `$`. -/
def Found (re text : List UInt8) : Prop :=
  if re.head? = some caret then (parse re.tail).Here text
  else ∃ u t, text = u ++ t ∧ (parse re).Here t

theorem lang_cons (i : Item) (p : Pattern) : (p.cons i).lang = i.lang * p.lang := List.prod_cons

end Language

section Match

variable {re text : List UInt8} {c : UInt8}

theorem matchstar_iff {p : Pattern} (hre : ∀ text, matchhere re text = true ↔ p.Here (cstr text)) :
    matchstar c re text = true ↔ (p.cons (.star c)).Here (cstr text) := by
  have hstar : ∀ t, (p.cons (.star c)).Here t ↔
      p.Here t ∨ ∃ b t', t = b :: t' ∧ Accepts c b ∧ (p.cons (.star c)).Here t' := by
    intro t
    unfold Pattern.Here
    rw [lang_cons]
    exact starts_star
  induction hn : text.length generalizing text with
  | zero =>
    obtain rfl := List.length_eq_zero_iff.mp hn
    rw [matchstar, hstar]
    simp [hre, deref, cstr]
  | succ n ih =>
    rw [matchstar, hstar, ← hre]
    by_cases hhere : matchhere re text = true
    · simp only [hhere, if_true, true_or]
    · rw [if_neg hhere, or_iff_right hhere]
      by_cases h : deref text ≠ 0 ∧ (deref text = c ∨ c = dot)
      · have hlen : text.tail.length = n := by
          rw [List.length_tail, hn]
          rfl
        rw [dif_pos h]
        refine (ih hlen).trans ⟨fun ht => ⟨_, _, cstr_eq_cons h.1, h.2.symm.imp id Eq.symm, ht⟩, ?_⟩
        rintro ⟨b, t', ht', -, hrest⟩
        rw [(deref_of_cstr_cons ht').2.2]
        exact hrest
      · rw [dif_neg h]
        refine iff_of_false (by simp) ?_
        rintro ⟨b, t', ht', hb, -⟩
        obtain ⟨hd, h0, -⟩ := deref_of_cstr_cons ht'
        exact h ⟨h0, hb.symm.imp (fun hc => hd.trans hc.symm) id⟩

theorem here_nil (t : List UInt8) : (⟨[], false⟩ : Pattern).Here t := starts_one

theorem here_bound (t : List UInt8) : (⟨[], true⟩ : Pattern).Here t ↔ t = [] := starts_one_whole

theorem here_one {p : Pattern} (x : UInt8) (t : List UInt8) :
    (p.cons (.one x)).Here t ↔ ∃ b t', t = b :: t' ∧ Accepts x b ∧ p.Here t' := by
  unfold Pattern.Here
  rw [lang_cons]
  exact starts_letter

theorem parse_one {x : UInt8} {re : List UInt8} (hstar : re.head? ≠ some star) (hlast : ¬ (x = dollar ∧ re = [])) :
    parse (x :: re) = (parse re).cons (.one x) := by
  cases re with
  | nil => exact if_neg fun hx => hlast ⟨hx, rfl⟩
  | cons s re => exact if_neg fun hs => hstar (congrArg some hs)

theorem matchhere_iff : matchhere re text = true ↔ (parse (cstr re)).Here (cstr text) := by
  -- every call of the recursion is on a shorter pattern
  induction hn : re.length using Nat.strong_induction_on generalizing re text with
  | _ n ih =>
    subst hn
    rw [matchhere]
    by_cases h0 : deref re = 0
    · rw [dif_pos h0, cstr_eq_nil h0]
      exact iff_of_true rfl (here_nil _)
    rw [dif_neg h0, cstr_eq_cons h0]
    have hlt := tail_lt_of_deref h0
    by_cases hs : deref re.tail = star
    · have hs0 : deref re.tail ≠ 0 := by
        rw [hs]
        decide
      have hlt' := tail_lt_of_deref hs0
      rw [if_pos hs, cstr_eq_cons hs0, hs, parse, if_pos rfl]
      exact matchstar_iff fun t => ih _ (by omega) rfl
    rw [if_neg hs]
    have hhead : (cstr re.tail).head? ≠ some star := fun hc => hs ((head?_cstr (by decide)).mp hc)
    by_cases hd : deref re = dollar ∧ deref re.tail = 0
    · rw [if_pos hd, hd.1, cstr_eq_nil hd.2, parse, if_pos rfl, here_bound, decide_eq_true_iff]
      refine ⟨cstr_eq_nil, fun ht => ?_⟩
      by_contra hne
      rw [cstr_eq_cons hne] at ht
      exact absurd ht (by simp)
    have hlast : ¬ (deref re = dollar ∧ cstr re.tail = []) := by
      rintro ⟨hx, ht⟩
      refine hd ⟨hx, ?_⟩
      by_contra hne
      rw [cstr_eq_cons hne] at ht
      exact absurd ht (by simp)
    rw [if_neg hd, parse_one hhead hlast, here_one]
    by_cases ht : deref text ≠ 0 ∧ (deref re = dot ∨ deref re = deref text)
    · rw [if_pos ht]
      refine (ih _ hlt rfl).trans ⟨fun h => ⟨_, _, cstr_eq_cons ht.1, ht.2, h⟩, ?_⟩
      rintro ⟨b, t', ht', -, h⟩
      rw [(deref_of_cstr_cons ht').2.2]
      exact h
    · rw [if_neg ht]
      refine iff_of_false (by simp) ?_
      rintro ⟨b, t', ht', hb, -⟩
      obtain ⟨rfl, hb0, -⟩ := deref_of_cstr_cons ht'
      exact ht ⟨hb0, hb⟩

theorem matchLoop_iff : matchLoop re text = true ↔ ∃ u t, cstr text = u ++ t ∧ (parse (cstr re)).Here t := by
  induction hn : text.length using Nat.strong_induction_on generalizing text with
  | _ n ih =>
    subst hn
    refine Iff.trans ?_ starts_somewhere.symm
    rw [matchLoop]
    by_cases hhere : matchhere re text = true
    · exact iff_of_true (if_pos hhere) (.inl (matchhere_iff.mp hhere))
    have hnot : ¬ Starts (parse (cstr re)).lang (parse (cstr re)).bound (cstr text) := fun h =>
      hhere (matchhere_iff.mpr h)
    rw [if_neg hhere, or_iff_right hnot]
    by_cases h0 : deref text = 0
    · rw [dif_neg (not_not.mpr h0), cstr_eq_nil h0]
      exact iff_of_false (by simp) (by simp)
    · rw [dif_pos h0]
      refine (ih _ (tail_lt_of_deref h0) rfl).trans ⟨fun h => ⟨_, _, cstr_eq_cons h0, h⟩, ?_⟩
      rintro ⟨c, s, hs, h⟩
      rw [(deref_of_cstr_cons hs).2.2]
      exact h

/-- `match` returns, and finds what the pattern stands for. -/
theorem match_iff_found (re text : List UInt8) : matchRe re text = true ↔ Found (cstr re) (cstr text) := by
  unfold matchRe Found
  by_cases hc : deref re = caret
  · have h0 : deref re ≠ 0 := by
      rw [hc]
      decide
    rw [if_pos hc, if_pos ((head?_cstr (by decide)).mpr hc), cstr_eq_cons h0]
    exact matchhere_iff
  · rw [if_neg hc, if_neg fun h => hc ((head?_cstr (by decide)).mp h)]
    exact matchLoop_iff

theorem matchRe_nil (text : List UInt8) : matchRe [] text = true := by
  rw [matchRe, if_neg (by decide), matchLoop_iff]
  exact ⟨[], cstr text, rfl, here_nil _⟩

theorem matchRe_append {s : List UInt8} (h : 0 ∉ s) (t : List UInt8) : matchRe re (s ++ 0 :: t) = matchRe re s := by
  have hcstr : cstr (s ++ 0 :: t) = cstr s := by
    rw [cstr_append h, cstr_of_notMem h, show cstr (0 :: _) = [] from rfl, List.append_nil]
  unfold matchRe
  split
  · rw [Bool.eq_iff_iff, matchhere_iff, matchhere_iff, hcstr]
  · rw [Bool.eq_iff_iff, matchLoop_iff, matchLoop_iff, hcstr]

end Match

end Xv6.Grep
