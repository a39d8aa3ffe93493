import Mathlib.Data.List.TakeWhile

namespace Xv6.Lib

variable {α : Type} [DecidableEq α] {sep : α} {l s : List α}

/-- The lines that a separator ends, without it, and what is left over. -/
def lines (sep : α) : List α → List (List α) × List α
  | [] => ([], [])
  | c :: s =>
    if c = sep then ([] :: (lines sep s).1, (lines sep s).2)
    else
      match (lines sep s).1 with
      | [] => ([], c :: (lines sep s).2)
      | l :: ls => ((c :: l) :: ls, (lines sep s).2)

theorem lines_of_notMem (h : sep ∉ s) : lines sep s = ([], s) := by
  induction s with
  | nil => rfl
  | cons c s ih =>
    have hc : c ≠ sep := fun hc => h (hc ▸ List.mem_cons_self)
    rw [lines, if_neg hc, ih fun hs => h (List.mem_cons_of_mem c hs)]

theorem lines_append_cons (h : sep ∉ l) (s : List α) :
    lines sep (l ++ sep :: s) = (l :: (lines sep s).1, (lines sep s).2) := by
  induction l with
  | nil => rw [List.nil_append, lines, if_pos rfl]
  | cons c l ih =>
    have hc : c ≠ sep := fun hc => h (hc ▸ List.mem_cons_self)
    rw [List.cons_append, lines, if_neg hc, ih fun hs => h (List.mem_cons_of_mem c hs)]

omit [DecidableEq α] in
@[elab_as_elim]
theorem line_induction {motive : List α → Prop} (rest : ∀ s, sep ∉ s → motive s)
    (line : ∀ l s, sep ∉ l → motive s → motive (l ++ sep :: s)) (s : List α) : motive s := by
  induction hn : s.length using Nat.strongRecOn generalizing s with
  | _ n ih =>
    subst hn
    by_cases h : sep ∈ s
    · obtain ⟨l, s', rfl, hl⟩ := List.eq_append_cons_of_mem h
      refine line l s' hl (ih _ ?_ s' rfl)
      rw [List.length_append, List.length_cons]
      omega
    · exact rest s h

theorem lines_append (s t : List α) :
    (lines sep (s ++ t)).1 = (lines sep s).1 ++ (lines sep ((lines sep s).2 ++ t)).1 := by
  induction s using @line_induction α sep with
  | rest s hs => rw [lines_of_notMem hs, List.nil_append]
  | line l s hl ih =>
    rw [List.append_assoc, List.cons_append, lines_append_cons hl, lines_append_cons hl, ih, List.cons_append]

theorem notMem_lines_rest (s : List α) : sep ∉ (lines sep s).2 := by
  induction s using @line_induction α sep with
  | rest s hs =>
    rw [lines_of_notMem hs]
    exact hs
  | line l s hl ih =>
    rw [lines_append_cons hl]
    exact ih

theorem mem_of_mem_lines_rest {c : α} (h : c ∈ (lines sep s).2) : c ∈ s := by
  induction s using @line_induction α sep with
  | rest s hs =>
    rw [lines_of_notMem hs] at h
    exact h
  | line l s hl ih =>
    rw [lines_append_cons hl] at h
    exact List.mem_append_right l (List.mem_cons_of_mem sep (ih h))

theorem length_lines_rest (s : List α) : (lines sep s).2.length ≤ s.length := by
  induction s using @line_induction α sep with
  | rest s hs => rw [lines_of_notMem hs]
  | line l s hl ih =>
    rw [lines_append_cons hl, List.length_append, List.length_cons]
    exact Nat.le_trans ih (by omega)

theorem length_line_lt (h : l ∈ (lines sep s).1) : l.length < s.length := by
  induction s using @line_induction α sep with
  | rest s hs =>
    rw [lines_of_notMem hs] at h
    exact absurd h List.not_mem_nil
  | line k s hk ih =>
    rw [lines_append_cons hk] at h
    rw [List.length_append, List.length_cons]
    obtain rfl | h := List.mem_cons.mp h
    · omega
    · have hlt := ih h
      omega

theorem length_le_head_line {t : List α} (hs : sep ∉ s) (h : (lines sep (s ++ t)).1.head? = some l) :
    s.length ≤ l.length := by
  induction t using @line_induction α sep with
  | rest t ht =>
    rw [lines_of_notMem fun hc => (List.mem_append.mp hc).elim hs ht] at h
    exact absurd h (by simp)
  | line k t hk =>
    rw [← List.append_assoc, lines_append_cons fun hc => (List.mem_append.mp hc).elim hs hk] at h
    rw [← Option.some.inj h, List.length_append]
    exact Nat.le_add_right _ _

end Xv6.Lib
