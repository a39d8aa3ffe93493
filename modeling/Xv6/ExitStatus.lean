import Xv6.Pids

namespace Xv6.Threads

open Function

variable {n : Nat} {κ Λ γ L D X : Type}

def Event.exitedPid : Event → Option Nat
  | .exited pid _ => some pid
  | _ => none

def Event.waitedPid : Event → Option Nat
  | .waited _ pid _ => some pid
  | _ => none

structure ExitInv (s : Sys n κ Λ γ L D) : Prop where
  lt : ∀ pid status, .exited pid status ∈ s.events → pid ≠ 0 ∧ pid < s.nextpid
  zombie : ∀ q, (s.proc q).state = .zombie → .exited (s.proc q).pid (s.proc q).xstate ∈ s.events
  exited : ∀ q status, .exited (s.proc q).pid status ∈ s.events →
    (s.proc q).state = .zombie ∧ (s.proc q).xstate = status
  waited : ∀ parent pid status, .waited parent pid status ∈ s.events →
    .exited pid status ∈ s.events ∧ ∀ q, (s.proc q).pid ≠ pid
  exitedOnce : (s.events.filterMap Event.exitedPid).Nodup
  waitedOnce : (s.events.filterMap Event.waitedPid).Nodup

theorem mem_exitedPid {es : List Event} {pid : Nat} :
    pid ∈ es.filterMap Event.exitedPid ↔ ∃ status, .exited pid status ∈ es := by
  rw [List.mem_filterMap]
  constructor
  · rintro ⟨e, he, hpid⟩
    cases e <;> cases hpid
    exact ⟨_, he⟩
  · rintro ⟨status, he⟩
    exact ⟨_, he, rfl⟩

theorem mem_waitedPid {es : List Event} {pid : Nat} :
    pid ∈ es.filterMap Event.waitedPid ↔ ∃ parent status, .waited parent pid status ∈ es := by
  rw [List.mem_filterMap]
  constructor
  · rintro ⟨e, he, hpid⟩
    cases e <;> cases hpid
    exact ⟨_, _, he⟩
  · rintro ⟨parent, status, he⟩
    exact ⟨_, he, rfl⟩

def Event.aside : Event → Bool
  | .exited _ _ => false
  | .waited _ _ _ => false
  | _ => true

variable {s t : Sys n κ Λ γ L D} {c : κ} {p q : Fin n} {x : Proc n γ} {es : List Event}

theorem ExitInv.aside (h : ExitInv s) (es : List Event) (hevents : t.events = es ++ s.events)
    (hes : ∀ e ∈ es, e.aside = true) (hnext : s.nextpid ≤ t.nextpid)
    (hzombie : ∀ q, (t.proc q).state = .zombie → (s.proc q).state = .zombie ∧
      (t.proc q).pid = (s.proc q).pid ∧ (t.proc q).xstate = (s.proc q).xstate)
    (hpid : ∀ q, (t.proc q).pid = 0 ∨ s.nextpid ≤ (t.proc q).pid ∨ (t.proc q).pid = (s.proc q).pid ∧
      ((s.proc q).state = .zombie → (t.proc q).state = .zombie)) : ExitInv t := by
  have hexited : ∀ pid status, .exited pid status ∈ t.events ↔ .exited pid status ∈ s.events := by
    intro pid status
    rw [hevents, List.mem_append, or_iff_right fun hm => by cases hes _ hm]
  have hwaited : ∀ parent pid status, .waited parent pid status ∈ t.events ↔
      .waited parent pid status ∈ s.events := by
    intro parent pid status
    rw [hevents, List.mem_append, or_iff_right fun hm => by cases hes _ hm]
  have hnone : ∀ f : Event → Option Nat, (∀ e, e.aside = true → f e = none) →
      t.events.filterMap f = s.events.filterMap f := by
    intro f hf
    rw [hevents, List.filterMap_append, List.filterMap_eq_nil_iff.mpr fun e he => hf e (hes e he),
      List.nil_append]
  refine ⟨fun pid status he => ?_, fun q hz => ?_, fun q status he => ?_, fun parent pid status he => ?_,
    ?_, ?_⟩
  · obtain ⟨hz, hlt⟩ := h.lt pid status ((hexited pid status).mp he)
    exact ⟨hz, Nat.lt_of_lt_of_le hlt hnext⟩
  · obtain ⟨hzs, hp, hx⟩ := hzombie q hz
    rw [hexited, hp, hx]
    exact h.zombie q hzs
  · have hs := (hexited _ _).mp he
    obtain ⟨hz, hlt⟩ := h.lt _ _ hs
    rcases hpid q with hp | hp | ⟨hp, hkeep⟩
    · exact absurd hp hz
    · exact absurd hlt (Nat.not_lt_of_le hp)
    · rw [hp] at hs
      obtain ⟨hzs, hx⟩ := h.exited q status hs
      exact ⟨hkeep hzs, (hzombie q (hkeep hzs)).2.2.trans hx⟩
  · obtain ⟨hex, hout⟩ := h.waited parent pid status ((hwaited parent pid status).mp he)
    refine ⟨(hexited pid status).mpr hex, fun q hq => ?_⟩
    obtain ⟨hz, hlt⟩ := h.lt pid status hex
    rcases hpid q with hp | hp | ⟨hp, -⟩
    · exact hz (hq.symm.trans hp)
    · exact Nat.not_lt_of_le hp (hq ▸ hlt)
    · exact hout q (hp.symm.trans hq)
  · rw [hnone _ fun e he => by cases e <;> first | rfl | cases he]
    exact h.exitedOnce
  · rw [hnone _ fun e he => by cases e <;> first | rfl | cases he]
    exact h.waitedOnce

theorem ExitInv.sets (h : ExitInv s) (hs : Sets s t q x es) (hes : ∀ e ∈ es, e.aside = true)
    (hpid : x.pid = (s.proc q).pid) (hx : x.xstate = (s.proc q).xstate)
    (hst : x.state = .zombie ↔ (s.proc q).state = .zombie) : ExitInv t := by
  refine h.aside _ hs.events hes (Nat.le_of_eq hs.nextpid.symm) (fun q' hz => ?_) fun q' => .inr (.inr ?_)
  · by_cases hq : q' = q
    · rw [hq, hs.self] at hz ⊢
      exact ⟨hst.mp hz, hpid, hx⟩
    · rw [hs.of_ne hq] at hz ⊢
      exact ⟨hz, rfl, rfl⟩
  · by_cases hq : q' = q
    · rw [hq, hs.self]
      exact ⟨hpid, hst.mpr⟩
    · rw [hs.of_ne hq]
      exact ⟨rfl, id⟩

theorem ExitInv.abort (h : ExitInv s) (hs : Sets s t q {} []) : ExitInv t := by
  refine h.aside _ hs.events (fun e he => by cases he) (Nat.le_of_eq hs.nextpid.symm) (fun q' hz => ?_)
    fun q' => ?_
  · have hq : q' ≠ q := fun he => by
      rw [he, hs.self] at hz
      cases hz
    rw [hs.of_ne hq] at hz ⊢
    exact ⟨hz, rfl, rfl⟩
  · by_cases hq : q' = q
    · rw [hq, hs.self]
      exact .inl rfl
    · rw [hs.of_ne hq]
      exact .inr (.inr ⟨rfl, id⟩)

theorem ExitInv.alloc (h : ExitInv s) (hproc : t.proc = update s.proc q { s.proc q with
      pid := s.nextpid
      state := .used }) (hevents : t.events = .allocated s.nextpid :: s.events)
    (hnext : t.nextpid = s.nextpid + 1) : ExitInv t := by
  obtain ⟨hself, hne⟩ := eq_update_iff.mp hproc
  refine h.aside [.allocated s.nextpid] hevents (fun e he => ?_)
    (by rw [hnext]; exact Nat.le_succ _) (fun q' hz => ?_) fun q' => ?_
  · rw [List.mem_singleton.mp he]
    rfl
  · have hq : q' ≠ q := fun he => by
      rw [he, hself] at hz
      cases hz
    rw [hne q' hq] at hz ⊢
    exact ⟨hz, rfl, rfl⟩
  · by_cases hq : q' = q
    · rw [hq, hself]
      exact .inr (.inl (Nat.le_refl _))
    · rw [hne q' hq]
      exact .inr (.inr ⟨rfl, id⟩)

theorem ExitInv.exit (h : ExitInv s) (hp : PidInv s) {status : Int} (hrun : (s.proc p).state = .running)
    (hs : Sets s t p { s.proc p with
      xstate := status
      state := .zombie } [.exited (s.proc p).pid status]) : ExitInv t := by
  have hnot : ∀ status', .exited (s.proc p).pid status' ∉ s.events := fun status' he => by
    have hz := (h.exited p status' he).1
    simp [hrun] at hz
  obtain ⟨hz, -⟩ := hp.alive p (by simp [hrun])
  have hother : ∀ q, q ≠ p → (s.proc q).pid ≠ (s.proc p).pid := fun q hq he =>
    hq (hp.unique p q he.symm hz).symm
  refine ⟨fun pid st he => ?_, fun q hzq => ?_, fun q st he => ?_, fun parent pid st he => ?_, ?_, ?_⟩
  · rw [hs.events] at he
    rw [hs.nextpid]
    rcases List.mem_cons.mp he with he | he
    · cases he
      exact ⟨hz, hp.lt p⟩
    · exact h.lt pid st he
  · rw [hs.events]
    by_cases hq : q = p
    · rw [hq, hs.self]
      exact List.mem_cons_self
    · rw [hs.of_ne hq] at hzq ⊢
      exact List.mem_cons_of_mem _ (h.zombie q hzq)
  · rw [hs.events] at he
    by_cases hq : q = p
    · rw [hq, hs.self] at he ⊢
      rcases List.mem_cons.mp he with he | he
      · cases he
        exact ⟨rfl, rfl⟩
      · exact absurd he (hnot st)
    · rw [hs.of_ne hq] at he ⊢
      rcases List.mem_cons.mp he with he | he
      · injection he with he _
        exact absurd he (hother q hq)
      · exact h.exited q st he
  · rw [hs.events] at he ⊢
    obtain ⟨hex, hout⟩ := h.waited parent pid st ((List.mem_cons.mp he).resolve_left fun he => by cases he)
    refine ⟨List.mem_cons_of_mem _ hex, fun q => ?_⟩
    by_cases hq : q = p
    · rw [hq, hs.self]
      exact hout p
    · rw [hs.of_ne hq]
      exact hout q
  · rw [hs.events]
    refine List.nodup_cons.mpr ⟨fun hm => ?_, h.exitedOnce⟩
    obtain ⟨st, he⟩ := mem_exitedPid.mp hm
    exact hnot st he
  · rw [hs.events]
    exact h.waitedOnce

theorem ExitInv.reap (h : ExitInv s) (hp : PidInv s) (hzombie : (s.proc q).state = .zombie) {parent : Nat}
    (hs : Sets s t q {} [.waited parent (s.proc q).pid (s.proc q).xstate]) : ExitInv t := by
  obtain ⟨hz, -⟩ := hp.alive q (by simp [hzombie])
  have hpid : ∀ q', (t.proc q').pid = 0 ∨ q' ≠ q ∧ t.proc q' = s.proc q' := by
    intro q'
    by_cases hq : q' = q
    · rw [hq, hs.self]
      exact .inl rfl
    · exact .inr ⟨hq, hs.of_ne hq⟩
  have hexited : ∀ pid st, .exited pid st ∈ t.events → .exited pid st ∈ s.events := by
    intro pid st he
    rw [hs.events] at he
    exact (List.mem_cons.mp he).resolve_left fun he => by cases he
  refine ⟨fun pid st he => ?_, fun q' hzq => ?_, fun q' st he => ?_, fun pp pid st he => ?_, ?_, ?_⟩
  · rw [hs.nextpid]
    exact h.lt pid st (hexited pid st he)
  · have hq : q' ≠ q := fun he => by
      rw [he, hs.self] at hzq
      cases hzq
    rw [hs.of_ne hq] at hzq ⊢
    rw [hs.events]
    exact List.mem_cons_of_mem _ (h.zombie q' hzq)
  · have hes := hexited _ st he
    rcases hpid q' with h0 | ⟨-, hq⟩
    · exact absurd h0 (h.lt _ st hes).1
    · rw [hq] at hes ⊢
      exact h.exited q' st hes
  · rw [hs.events] at he ⊢
    rcases List.mem_cons.mp he with he | he
    · cases he
      refine ⟨List.mem_cons_of_mem _ (h.zombie q hzombie), fun q' hq' => ?_⟩
      rcases hpid q' with h0 | ⟨hne, hq⟩
      · exact hz (hq'.symm.trans h0)
      · rw [hq] at hq'
        exact hne (hp.unique q q' hq'.symm hz).symm
    · obtain ⟨hex, hout⟩ := h.waited pp pid st he
      refine ⟨List.mem_cons_of_mem _ hex, fun q' hq' => ?_⟩
      rcases hpid q' with h0 | ⟨-, hq⟩
      · exact (h.lt pid st hex).1 (hq'.symm.trans h0)
      · rw [hq] at hq'
        exact hout q' hq'
  · rw [hs.events]
    exact h.exitedOnce
  · rw [hs.events]
    refine List.nodup_cons.mpr ⟨fun hm => ?_, h.waitedOnce⟩
    obtain ⟨pp, st, he⟩ := mem_waitedPid.mp hm
    exact (h.waited pp _ st he).2 q rfl

theorem ExitInv.change {A : L → List (Lock n Λ) → Prop} (h : ExitInv s) (hp : PidInv s) (hi : Inv A s)
    (hc : Change s c t) : ExitInv t := by
  have hrun : ∀ p f rest, s.cur c = some p → s.stack (s.thread c) = f :: rest → f.plain = true →
      (s.proc p).state = .running := fun p f rest hcur hstk hf => hi.state_running hcur hstk hf
  cases hc with
  | same hproc he hn =>
    exact h.aside [] he (fun e hm => by cases hm) (Nat.le_of_eq hn.symm)
      (fun q hz => by rw [hproc] at hz ⊢; exact ⟨hz, rfl, rfl⟩)
      fun q => .inr (.inr (by rw [hproc]; exact ⟨rfl, id⟩))
  | run q x hx hst _ hnz hs =>
    refine h.sets hs (fun e hm => by cases hm) (by rw [hx]) (by rw [hx]) (iff_of_false ?_ hnz)
    rcases hst with hst | hst <;> simp [hst]
  | sleep p ch lk rest hcur hstk hs =>
    exact h.sets hs (fun e hm => by cases hm) rfl rfl
      (iff_of_false (by simp) (by simp [hrun p _ _ hcur hstk rfl]))
  | kill q pid rest _ _ hs =>
    refine h.sets hs (fun e hm => ?_) rfl rfl ?_
    · rw [List.mem_singleton.mp hm]
      rfl
    · simp only [Threads.kill]
      split_ifs with hsl <;> simp [hsl]
  | setkilled p _ hs =>
    refine h.sets hs (fun e hm => ?_) rfl rfl .rfl
    rw [List.mem_singleton.mp hm]
    rfl
  | alloc q rest _ _ hproc he hn => exact h.alloc hproc he hn
  | abort q rest _ hs => exact h.abort hs
  | parent p q rest _ _ hs | reparent p q status rest _ _ _ hs _ _ =>
    exact h.sets hs (fun e hm => by cases hm) rfl rfl .rfl
  | zombie p status rest hcur hstk hs => exact h.exit hp (hrun p _ _ hcur hstk rfl) hs
  | reap p q addr rest _ _ hz hs _ => exact h.reap hp hz hs

theorem ExitInv.init (p : Fin n) (d : D) : ExitInv (init p d : Sys n κ Λ γ L D) := by
  have hevents : (Threads.init p d : Sys n κ Λ γ L D).events = [.allocated 1] := rfl
  have hmem : ∀ e : Event, e.aside = false → e ∉ (Threads.init p d : Sys n κ Λ γ L D).events := by
    intro e he hm
    rw [hevents, List.mem_singleton] at hm
    rw [hm] at he
    cases he
  refine ⟨fun pid st he => absurd he (hmem _ rfl), fun q hz => ?_, fun q st he => absurd he (hmem _ rfl),
    fun pp pid st he => absurd he (hmem _ rfl), List.nodup_nil, List.nodup_nil⟩
  by_cases hq : q = p
  · rw [hq] at hz
    simp only [Threads.init, update_self] at hz
    cases hz
  · simp only [Threads.init, update_of_ne hq] at hz
    cases hz

end Xv6.Threads
