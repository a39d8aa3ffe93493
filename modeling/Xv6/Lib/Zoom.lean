import Xv6.Lib.Ensures

namespace Xv6.Lib

variable {ε σ τ α : Type}

/-- `m` as a step on a larger state: `view` gives the part that `m` works on, `put` puts it back. -/
def zoom (view : σ → τ) (put : τ → σ → σ) (m : EStateM ε τ α) : EStateM ε σ α := fun s =>
  match m (view s) with
  | .ok a t => .ok a (put t s)
  | .error e t => .error e (put t s)

theorem Ensures.zoom {view : σ → τ} {put : τ → σ → σ} {m : EStateM ε τ α} {s : σ} {Q : α → σ → Prop}
    {E : ε → σ → Prop} (h : Ensures m (view s) (fun a t => Q a (put t s)) fun e t => E e (put t s)) :
    Ensures (zoom view put m) s Q E := by
  unfold Ensures at h ⊢
  unfold Lib.zoom
  cases hm : m (view s) with
  | ok a t | error e t =>
    rw [hm] at h
    exact h

end Xv6.Lib
