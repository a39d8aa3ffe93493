import Mathlib.Logic.Basic

namespace Xv6.Lib

variable {ε σ α β : Type}

/-- `m` started in `s` either returns, and then `Q` holds of the result and the
final state, or stops early, and then `E` holds of the reason and of the state it
stopped in. -/
def Ensures (m : EStateM ε σ α) (s : σ) (Q : α → σ → Prop) (E : ε → σ → Prop) : Prop :=
  match m s with
  | .ok a t => Q a t
  | .error e t => E e t

/-- If `m` returns, `Q` holds. -/
abbrev Returns (m : EStateM ε σ α) (s : σ) (Q : α → σ → Prop) : Prop := Ensures m s Q fun _ _ => True

/-- `m` returns, and then `Q` holds. -/
abbrev Completes (m : EStateM ε σ α) (s : σ) (Q : α → σ → Prop) : Prop := Ensures m s Q fun _ _ => False

namespace Ensures

variable {m : EStateM ε σ α} {s t : σ} {Q Q' : α → σ → Prop} {E E' : ε → σ → Prop} {a : α}
  {f : α → EStateM ε σ β} {R : β → σ → Prop}

theorem ok (h : Ensures m s Q E) (hm : m s = .ok a t) : Q a t := by
  simpa only [Ensures, hm] using h

theorem of_ok (hm : m s = .ok a t) (h : Q a t) : Ensures m s Q E := by
  simpa only [Ensures, hm] using h

theorem error {e : ε} (h : Ensures m s Q E) (hm : m s = .error e t) : E e t := by
  simpa only [Ensures, hm] using h

theorem imp (h : Ensures m s Q E) (hQ : ∀ a t, Q a t → Q' a t) (hE : ∀ e t, E e t → E' e t) :
    Ensures m s Q' E' := by
  unfold Ensures at h ⊢
  split at h
  · exact hQ _ _ h
  · exact hE _ _ h

theorem post (h : Ensures m s Q E) (hQ : ∀ a t, Q a t → Q' a t) : Ensures m s Q' E :=
  h.imp hQ (fun _ _ he => he)

theorem self (m : EStateM ε σ α) (s : σ) :
    Ensures m s (fun a t => m s = .ok a t) (fun e t => m s = .error e t) := by
  unfold Ensures
  split
  · next hm => exact hm
  · next hm => exact hm

theorem any (m : EStateM ε σ α) (s : σ) : Returns m s fun _ _ => True := by
  unfold Returns Ensures
  split <;> trivial

theorem returns (h : Ensures m s Q E) : Returns m s Q := h.imp (fun _ _ ha => ha) fun _ _ _ => trivial

theorem and (h : Ensures m s Q E) (h' : Ensures m s Q' E') :
    Ensures m s (fun a t => Q a t ∧ Q' a t) (fun e t => E e t ∧ E' e t) := by
  unfold Ensures at h h' ⊢
  cases hm : m s with
  | ok a t | error e t =>
    rw [hm] at h h'
    exact ⟨h, h'⟩

theorem false (h : Ensures m s (fun _ _ => False) fun _ _ => False) : False := by
  unfold Ensures at h
  split at h
  · exact h
  · exact h

theorem both (h : Ensures m s Q E) (h' : Ensures m s Q' E) :
    Ensures m s (fun a t => Q a t ∧ Q' a t) E :=
  (h.and h').imp (fun _ _ ha => ha) (fun _ _ he => he.1)

theorem and_if {P : Prop} (h : Ensures m s Q E) (h' : P → Ensures m s Q' (fun _ _ => True)) :
    Ensures m s (fun a t => Q a t ∧ (P → Q' a t)) E := by
  by_cases hp : P
  · exact (h.and (h' hp)).imp (fun _ _ ha => ⟨ha.1, fun _ => ha.2⟩) (fun _ _ he => he.1)
  · exact h.post (fun _ _ ha => ⟨ha, fun hc => absurd hc hp⟩)

instance [∀ a t, Decidable (Q a t)] [∀ e t, Decidable (E e t)] : Decidable (Ensures m s Q E) :=
  match h : m s with
  | .ok a t => decidable_of_iff (Q a t) (by simp only [Ensures, h])
  | .error e t => decidable_of_iff (E e t) (by simp only [Ensures, h])

theorem bind (h : Ensures m s (fun a t => Ensures (f a) t R E) E) : Ensures (m >>= f) s R E := by
  unfold Ensures at h
  show match EStateM.bind m f s with | .ok a t => R a t | .error e t => E e t
  unfold EStateM.bind
  cases hm : m s with
  | ok a t => simpa only [hm, Ensures] using h
  | error e t => simpa only [hm] using h

/-- The sequence rule: what the first part ensures is what the second part starts from. -/
theorem seq (h : Ensures m s Q E)
    (hf : ∀ a t, Q a t → Ensures (f a) t R E) : Ensures (m >>= f) s R E := bind (h.post hf)

theorem bind_get {f : σ → EStateM ε σ β} (h : Ensures (f s) s R E) :
    Ensures (get >>= f) s R E := bind h

theorem bind_set {f : PUnit → EStateM ε σ β} (h : Ensures (f ⟨⟩) t R E) :
    Ensures (set t >>= f) s R E := bind h

theorem bind_modify {g : σ → σ} {f : PUnit → EStateM ε σ β}
    (h : Ensures (f ⟨⟩) (g s) R E) : Ensures (modify g >>= f) s R E := bind h

theorem pure (h : Q a s) : Ensures (pure a : EStateM ε σ α) s Q E := h

theorem throw {e : ε} (h : E e s) : Ensures (throw e : EStateM ε σ α) s Q E := h

theorem set {Q : PUnit → σ → Prop} (h : Q ⟨⟩ t) : Ensures (set t : EStateM ε σ PUnit) s Q E := h

theorem modify {f : σ → σ} {Q : PUnit → σ → Prop} (h : Q ⟨⟩ (f s)) :
    Ensures (modify f : EStateM ε σ PUnit) s Q E := h

theorem bind_eq (hm : m s = .ok a t) (h : Ensures (f a) t R E) : Ensures (m >>= f) s R E :=
  bind (by simpa only [Ensures, hm] using h)

/-- A counting loop keeps an invariant that its body carries from each index to the
next one. -/
theorem forM_range (body : Nat → EStateM ε σ PUnit) (I : Nat → σ → Prop) (n : Nat)
    (hbody : ∀ k t, k < n → I k t → Ensures (body k) t (fun _ u => I (k + 1) u) E) (h0 : I 0 s) :
    Ensures ((List.range n).forM body) s (fun _ t => I n t) E := by
  induction n with
  | zero => exact h0
  | succ n ih =>
    rw [List.range_succ, List.forM_eq_forM, List.forM_append]
    refine (ih (fun k t hk hI => hbody k t (by omega) hI)).seq ?_
    intro _ t hI
    rw [List.forM_cons]
    exact (hbody n t (by omega) hI).seq (fun _ _ hu => hu)

/-- A loop over a list keeps an invariant that its body carries from each prefix to the next one. -/
theorem forM_list (body : α → EStateM ε σ PUnit) (I : List α → σ → Prop) (l : List α)
    (hbody : ∀ pre a post t, l = pre ++ a :: post → I pre t →
      Ensures (body a) t (fun _ u => I (pre ++ [a]) u) E) (h0 : I [] s) :
    Ensures (l.forM body) s (fun _ t => I l t) E := by
  induction l generalizing I s with
  | nil => exact h0
  | cons a l ih =>
    rw [List.forM_eq_forM, List.forM_cons]
    refine (hbody [] a l s rfl h0).seq ?_
    intro _ t ht
    exact ih (fun pre => I (a :: pre)) (fun pre b post u hl hu => hbody (a :: pre) b post u (hl ▸ rfl) hu) ht

end Ensures

section Returned

variable {s t : σ} {a b : α} {m : EStateM ε σ α} {f : α → EStateM ε σ β}

theorem bind_ok {b : β} :
    (m >>= f) s = .ok b t ↔ ∃ a u, m s = .ok a u ∧ f a u = .ok b t := by
  show EStateM.bind m f s = .ok b t ↔ _
  unfold EStateM.bind
  cases hm : m s with
  | ok a u => simp [and_assoc]
  | error e u => simp

theorem bind_of_ok (h : m s = .ok a t) :
    (m >>= f) s = f a t := by
  show EStateM.bind m f s = _
  rw [EStateM.bind, h]

theorem bind_of_error {e : ε} (h : m s = .error e t) :
    (m >>= f) s = .error e t := by
  show EStateM.bind m f s = _
  rw [EStateM.bind, h]

theorem pure_ok : (pure a : EStateM ε σ α) s = .ok b t ↔ a = b ∧ s = t :=
  EStateM.Result.ok.injEq a s b t ▸ Iff.rfl

theorem throw_ok {e : ε} : (throw e : EStateM ε σ α) s = .ok a t ↔ False :=
  ⟨(nomatch ·), False.elim⟩

theorem get_ok {u : σ} : (get : EStateM ε σ σ) s = .ok u t ↔ s = u ∧ s = t :=
  EStateM.Result.ok.injEq s s u t ▸ Iff.rfl

theorem set_ok {u : σ} {x : PUnit} : (set u : EStateM ε σ PUnit) s = .ok x t ↔ u = t := by
  show EStateM.Result.ok _ _ = _ ↔ _
  simp

theorem modify_ok {f : σ → σ} {x : PUnit} : (modify f : EStateM ε σ PUnit) s = .ok x t ↔ f s = t := by
  show EStateM.Result.ok _ _ = _ ↔ _
  simp

end Returned

end Xv6.Lib
