import Mathlib.Logic.Basic
import Mathlib.Tactic.Ring

namespace Xv6.Lib

variable {σ α : Type}

/-- Take the actions one after the other. -/
def exec (step : σ → α → Option σ) : σ → List α → Option σ
  | s, [] => some s
  | s, a :: as => (step s a).bind fun t => exec step t as

/-- A finite run of a transition function all of whose steps meet `ok`. -/
inductive Run (step : σ → α → Option σ) (ok : σ → α → Prop) : σ → List α → σ → Prop
  | nil (s : σ) : Run step ok s [] s
  | cons {s t u : σ} {a : α} {as : List α} : ok s a → step s a = some t → Run step ok t as u →
      Run step ok s (a :: as) u

variable {step : σ → α → Option σ} {ok ok' : σ → α → Prop} {s t : σ} {as : List α}

/-- What holds at the start and is kept by every step holds at the end. -/
theorem Run.invariant {I : σ → Prop} (hr : Run step ok s as t)
    (hstep : ∀ s a t, I s → ok s a → step s a = some t → I t) (h : I s) : I t := by
  induction hr with
  | nil s => exact h
  | cons hok hs _ ih => exact ih (hstep _ _ _ h hok hs)

theorem Run.mono (hr : Run step ok s as t) (h : ∀ s a, ok s a → ok' s a) : Run step ok' s as t := by
  induction hr with
  | nil s => exact .nil s
  | cons hok hs _ ih => exact .cons (h _ _ hok) hs ih

theorem Run.of_exec [∀ s a, Decidable (ok s a)]
    (h : exec (fun s a => if ok s a then step s a else none) s as = some t) :
    Run step ok s as t := by
  induction as generalizing s with
  | nil =>
    cases h
    exact .nil _
  | cons a as ih =>
    obtain ⟨u, hu, ht⟩ := Option.bind_eq_some_iff.mp h
    obtain ⟨hok, hs⟩ := Option.ite_none_right_eq_some.mp hu
    exact .cons hok hs (ih ht)

/-- The state a sequence of actions leads to, if all of them can be taken and meet `ok`. -/
def outcome (step : σ → α → Option σ) (ok : σ → α → Prop) [∀ s a, Decidable (ok s a)] (s : σ)
    (as : List α) : Option σ :=
  exec (fun s a => if ok s a then step s a else none) s as

theorem Run.of_outcome [∀ s a, Decidable (ok s a)] (h : (outcome step ok s as).isSome = true) :
    Run step ok s as ((outcome step ok s as).get h) :=
  Run.of_exec (Option.some_get h).symm

theorem Run.exists_of_outcome [∀ s a, Decidable (ok s a)] {P : σ → Prop}
    (h : ∃ t ∈ outcome step ok s as, P t) : ∃ t, Run step ok s as t ∧ P t := by
  obtain ⟨t, ht, hp⟩ := h
  exact ⟨t, Run.of_exec ht, hp⟩

end Xv6.Lib
