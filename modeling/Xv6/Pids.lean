import Xv6.ThreadEffects

namespace Xv6.Threads

open Function

variable {n : Nat} {κ Λ γ L D X : Type}

/-- Pids identify the processes, and a free slot keeps nothing of an earlier one, except that `kkill`
may have marked it. -/
structure PidInv (s : Sys n κ Λ γ L D) : Prop where
  lt : ∀ q, (s.proc q).pid < s.nextpid
  unused : ∀ q, (s.proc q).state = .unused → s.proc q = { killed := (s.proc q).killed }
  alive : ∀ q, (s.proc q).state ≠ .unused →
    (s.proc q).pid ≠ 0 ∧ .allocated (s.proc q).pid ∈ s.events
  unique : ∀ q q', (s.proc q).pid = (s.proc q').pid → (s.proc q).pid ≠ 0 → q = q'

variable {s t : Sys n κ Λ γ L D} {c : κ} {q : Fin n} {x : Proc n γ} {es : List Event}

theorem PidInv.sets (h : PidInv s) (hs : Sets s t q x es) (hpid : x.pid = (s.proc q).pid)
    (hst : (s.proc q).state = .unused ↔ x.state = .unused)
    (hx : x.state = .unused → x = { killed := x.killed }) : PidInv t := by
  have hpids : ∀ q', (t.proc q').pid = (s.proc q').pid := by
    intro q'
    by_cases hq : q' = q
    · rw [hq, hs.self, hpid]
    · rw [hs.of_ne hq]
  refine ⟨fun q' => ?_, fun q' hu => ?_, fun q' hu => ?_, fun q1 q2 he hz => ?_⟩
  · rw [hpids, hs.nextpid]
    exact h.lt q'
  · by_cases hq : q' = q
    · rw [hq, hs.self] at hu ⊢
      exact hx hu
    · rw [hs.of_ne hq] at hu ⊢
      exact h.unused q' hu
  · rw [hpids, hs.events]
    have hu' : (s.proc q').state ≠ .unused := by
      by_cases hq : q' = q
      · rw [hq, hs.self] at hu
        rw [hq]
        exact fun he => hu (hst.mp he)
      · rwa [hs.of_ne hq] at hu
    exact ⟨(h.alive q' hu').1, List.mem_append_right _ (h.alive q' hu').2⟩
  · rw [hpids, hpids] at he
    rw [hpids] at hz
    exact h.unique q1 q2 he hz

theorem PidInv.free (h : PidInv s) (hs : Sets s t q {} es) : PidInv t := by
  have hother : ∀ q', (t.proc q').pid ≠ 0 → q' ≠ q := fun q' hz he => by
    rw [he, hs.self] at hz
    exact hz rfl
  refine ⟨fun q' => ?_, fun q' hu => ?_, fun q' hu => ?_, fun q1 q2 he hz => ?_⟩
  · rw [hs.nextpid]
    by_cases hq : q' = q
    · rw [hq, hs.self]
      exact Nat.zero_lt_of_lt (h.lt q)
    · rw [hs.of_ne hq]
      exact h.lt q'
  · by_cases hq : q' = q
    · rw [hq, hs.self]
    · rw [hs.of_ne hq] at hu ⊢
      exact h.unused q' hu
  · have hq : q' ≠ q := fun he => by
      rw [he, hs.self] at hu
      exact hu rfl
    rw [hs.of_ne hq] at hu ⊢
    rw [hs.events]
    exact ⟨(h.alive q' hu).1, List.mem_append_right _ (h.alive q' hu).2⟩
  · have h1 := hother q1 hz
    have h2 := hother q2 (he ▸ hz)
    rw [hs.of_ne h1] at he hz
    rw [hs.of_ne h2] at he
    exact h.unique q1 q2 he hz

theorem PidInv.alloc (h : PidInv s) (hproc : t.proc = update s.proc q { s.proc q with
      pid := s.nextpid
      state := .used }) (hevents : t.events = .allocated s.nextpid :: s.events)
    (hnext : t.nextpid = s.nextpid + 1) : PidInv t := by
  obtain ⟨hself, hne⟩ := eq_update_iff.mp hproc
  have hlt : ∀ q', q' ≠ q → (t.proc q').pid < s.nextpid := fun q' hq => by
    rw [hne q' hq]
    exact h.lt q'
  refine ⟨fun q' => ?_, fun q' hu' => ?_, fun q' hu' => ?_, fun q1 q2 he hz => ?_⟩
  · rw [hnext]
    by_cases hq : q' = q
    · rw [hq, hself]
      exact Nat.lt_succ_self _
    · exact Nat.lt_succ_of_lt (hlt q' hq)
  · have hq : q' ≠ q := fun he => by
      rw [he, hself] at hu'
      cases hu'
    rw [hne q' hq] at hu' ⊢
    exact h.unused q' hu'
  · rw [hevents]
    by_cases hq : q' = q
    · rw [hq, hself]
      exact ⟨Nat.ne_of_gt (Nat.zero_lt_of_lt (h.lt q)), List.mem_cons_self⟩
    · rw [hne q' hq] at hu' ⊢
      exact ⟨(h.alive q' hu').1, List.mem_cons_of_mem _ (h.alive q' hu').2⟩
  · by_cases h1 : q1 = q
    · by_cases h2 : q2 = q
      · rw [h1, h2]
      · rw [h1, hself] at he
        exact absurd he.symm (Nat.ne_of_lt (hlt q2 h2))
    · by_cases h2 : q2 = q
      · rw [h2, hself] at he
        exact absurd he (Nat.ne_of_lt (hlt q1 h1))
      · rw [hne q1 h1] at he hz
        rw [hne q2 h2] at he
        exact h.unique q1 q2 he hz

theorem PidInv.sets_live (h : PidInv s) (hs : Sets s t q x es) (hpid : x.pid = (s.proc q).pid)
    (hst : (s.proc q).state ≠ .unused) (hx : x.state ≠ .unused) : PidInv t :=
  h.sets hs hpid (iff_of_false hst hx) fun he => absurd he hx

theorem PidInv.change {A : L → List (Lock n Λ) → Prop} (h : PidInv s) (hi : Inv A s)
    (hc : Change s c t) : PidInv t := by
  have hlive : ∀ p, s.cur c = some p → (s.proc p).state ≠ .unused := fun p hp =>
    (hi.live _ p (hi.cur _ p hp)).1
  cases hc with
  | same hp he hn => exact ⟨hp ▸ hn ▸ h.lt, hp ▸ h.unused, hp ▸ he ▸ h.alive, hp ▸ h.unique⟩
  | run q x hx hst hu _ hs =>
    refine h.sets_live hs (by rw [hx]) hu ?_
    rcases hst with hst | hst <;> simp [hst]
  | sleep p ch lk rest hcur _ hs | zombie p status rest hcur _ hs =>
    exact h.sets_live hs rfl (hlive p hcur) (by simp)
  | kill q pid rest _ _ hs =>
    have hst : (kill (s.proc q)).state = .unused ↔ (s.proc q).state = .unused := by
      simp only [kill]
      split_ifs with hsl <;> simp [hsl]
    refine h.sets hs rfl hst.symm fun hu => ?_
    have hq := h.unused q (hst.mp hu)
    rw [hq]
    rfl
  | setkilled p hcur hs => exact h.sets_live hs rfl (hlive p hcur) (hlive p hcur)
  | alloc q rest _ _ hp he hn => exact h.alloc hp he hn
  | abort q rest _ hs | reap p q addr rest _ _ _ hs _ => exact h.free hs
  | parent p q rest hcur hstk hs =>
    have hu : (s.proc q).state = .used :=
      hi.child p q _ (thread_some hcur ▸ hstk ▸ List.mem_cons_self) rfl
    exact h.sets_live hs rfl (by simp [hu]) (by simp [hu])
  | reparent p q status rest _ _ hp hs _ _ =>
    have hu : (s.proc q).state ≠ .unused := fun hu => by
      rw [h.unused q hu] at hp
      cases hp
    exact h.sets_live hs rfl hu hu

theorem PidInv.init (p : Fin n) (d : D) : PidInv (init p d : Sys n κ Λ γ L D) := by
  have hself : (Threads.init p d : Sys n κ Λ γ L D).proc p = { state := .runnable, pid := 1 } := by
    simp only [Threads.init, update_self]
  have hne : ∀ q, q ≠ p → (Threads.init p d : Sys n κ Λ γ L D).proc q = {} := fun q hq => by
    simp only [Threads.init, update_of_ne hq]
  have hpid : ∀ q, ((Threads.init p d : Sys n κ Λ γ L D).proc q).pid ≠ 0 → q = p := fun q hz => by
    by_contra hq
    rw [hne q hq] at hz
    exact hz rfl
  refine ⟨fun q => ?_, fun q hu => ?_, fun q hu => ?_, fun q q' he hz => ?_⟩
  · by_cases hq : q = p
    · rw [hq, hself]
      exact Nat.lt_succ_self 1
    · rw [hne q hq]
      exact Nat.zero_lt_two
  · have hq : q ≠ p := fun hq => by
      rw [hq, hself] at hu
      cases hu
    rw [hne q hq]
  · have hq : q = p := by
      by_contra hq
      rw [hne q hq] at hu
      exact hu rfl
    rw [hq, hself]
    exact ⟨Nat.one_ne_zero, List.mem_cons_self⟩
  · rw [hpid q hz, hpid q' (he ▸ hz)]

end Xv6.Threads
