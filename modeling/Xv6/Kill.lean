import Xv6.Pids

namespace Xv6.Threads

open Xv6.Lib Function

variable {n : Nat} {κ Λ γ L D X : Type}

/-- `kkill` was called with this pid, or `setkilled` on the process, after it was allocated. -/
def Hit (es : List Event) (pid : Nat) : Prop :=
  ∃ e older, (e = .killed pid ∨ e = .setkilled pid) ∧ e :: older <:+ es ∧ .allocated pid ∈ older

theorem Hit.append {es : List Event} {pid : Nat} (h : Hit es pid) (es' : List Event) :
    Hit (es' ++ es) pid := by
  obtain ⟨e, older, he, hsuf, halloc⟩ := h
  exact ⟨e, older, he, hsuf.trans (List.suffix_append es' es), halloc⟩

theorem Hit.cons {es : List Event} {pid : Nat} {e : Event} (he : e = .killed pid ∨ e = .setkilled pid)
    (halloc : .allocated pid ∈ es) : Hit (e :: es) pid :=
  ⟨e, es, he, List.suffix_rfl, halloc⟩

/-- The marks of `kkill` if it is never called with pid 0. -/
structure KillInv (s : Sys n κ Λ γ L D) : Prop where
  unused : ∀ q, (s.proc q).state = .unused → (s.proc q).killed = false
  hit : ∀ q, (s.proc q).killed = true → Hit s.events (s.proc q).pid
  args : ∀ y pid a, .kkill pid a ∈ s.stack y → pid ≠ 0

variable {s t : Sys n κ Λ γ L D} {c : κ} {q : Fin n} {x : Proc n γ} {es : List Event}

theorem KillInv.sets (h : KillInv s) (hs : Sets s t q x es) (hx : x.state = .unused → x.killed = false)
    (hkill : x.killed = true → Hit (es ++ s.events) x.pid)
    (hargs : ∀ y pid a, .kkill pid a ∈ t.stack y → pid ≠ 0) : KillInv t := by
  refine ⟨fun q' hu => ?_, fun q' hk => ?_, hargs⟩
  · by_cases hq : q' = q
    · rw [hq, hs.self] at hu ⊢
      exact hx hu
    · rw [hs.of_ne hq] at hu ⊢
      exact h.unused q' hu
  · rw [hs.events]
    by_cases hq : q' = q
    · rw [hq, hs.self] at hk ⊢
      exact hkill hk
    · rw [hs.of_ne hq] at hk ⊢
      exact (h.hit q' hk).append es

theorem KillInv.sets_same (h : KillInv s) (hs : Sets s t q x es) (hx : x.state ≠ .unused)
    (hk : x.killed = (s.proc q).killed) (hpid : x.pid = (s.proc q).pid)
    (hargs : ∀ y pid a, .kkill pid a ∈ t.stack y → pid ≠ 0) : KillInv t :=
  h.sets hs (fun hu => absurd hu hx)
    (fun hkx => hpid ▸ (h.hit q (hk ▸ hkx)).append es) hargs

section Steps

variable {A : L → List (Lock n Λ) → Prop}
  {code : L → Instr Λ γ L D X} {a : κ × Op L X}

theorem KillInv.init (p : Fin n) (d : D) : KillInv (init p d : Sys n κ Λ γ L D) := by
  have hk : ∀ q, ((Threads.init p d : Sys n κ Λ γ L D).proc q).killed = false := fun q => by
    by_cases hq : q = p
    · rw [hq]
      simp only [Threads.init, update_self]
    · simp only [Threads.init, update_of_ne hq]
  refine ⟨fun q _ => hk q, fun q hq => by simp [hk q] at hq, fun y pid b hb => ?_⟩
  cases y with
  | proc q =>
    simp only [Threads.init] at hb
    split_ifs at hb <;> simp at hb
  | sched c => simp [Threads.init] at hb

variable [DecidableEq κ] [DecidableEq Λ] [DecidableEq γ]

def Targeted (code : L → Instr Λ γ L D X) (s : Sys n κ Λ γ L D) (a : κ × Op L X) : Prop :=
  SleepsAlone code s a ∧ a.2 ≠ .kkill 0

instance [DecidableEq L] [DecidableEq X] : Decidable (Targeted code s a) :=
  inferInstanceAs (Decidable (_ ∧ _))

theorem KillInv.args_step (h : KillInv s) (hi : Inv A s) (hok : a.2 ≠ .kkill 0)
    (ht : step code s a = some t) : ∀ y pid b, .kkill pid b ∈ t.stack y → pid ≠ 0 := by
  intro y pid b hb
  have hgoto : ∀ (u : Sys n κ Λ γ L D) stk, u.stack = s.stack → u.thread a.1 = s.thread a.1 →
      .kkill pid b ∈ (u.goto a.1 stk).stack y → .kkill pid b ∈ stk ∨ .kkill pid b ∈ s.stack y := by
    intro u stk hu hth hm
    by_cases hy : y = u.thread a.1
    · rw [hy] at hm
      exact .inl (by rwa [show (u.goto a.1 stk).stack (u.thread a.1) = stk from
        update_self ..] at hm)
    · rw [show (u.goto a.1 stk).stack y = u.stack y from update_of_ne hy .., hu] at hm
      exact .inr hm
  rcases step_cases ht with ⟨ok, f, rest, -, hstk, ht⟩ | ⟨v, x, rest, -, hstk, ht⟩ | ht
  · have he := Effect.goStep hi hstk ht
    by_cases hy : y = s.thread a.1
    · rw [hy] at hb
      obtain ⟨b', hb'⟩ := he.flow.kkill hb
      exact h.args _ pid b' hb'
    · rcases he.others y hy with hs | ⟨q, -, -, hs⟩
      · exact h.args y pid b (hs ▸ hb)
      · rw [hs] at hb
        simp at hb
  · obtain ⟨f, -, rfl⟩ := accessStep_cases ht
    rcases hgoto { s with data := _ } _ rfl rfl hb with hb | hb
    · refine h.args (s.thread a.1) pid b ?_
      rw [hstk]
      exact List.mem_cons_of_mem _ (by simpa using hb)
    · exact h.args y pid b hb
  · rcases enterStep_cases ht with rfl | ⟨f, hf, -, rfl⟩
    · exact h.args y pid b hb
    · rcases hgoto s _ rfl rfl hb with hb | hb
      · rcases List.mem_cons.mp hb with rfl | hb
        · obtain ⟨c, op⟩ := a
          cases op <;> cases hf
          exact fun he => hok (by rw [he])
        · exact h.args _ pid b hb
      · exact h.args y pid b hb

theorem KillInv.step (h : KillInv s) (hp : PidInv s) (hi : Inv A s) (hok : a.2 ≠ .kkill 0)
    (ht : step code s a = some t) : KillInv t := by
  have hargs := h.args_step hi hok ht
  have hlive : ∀ p, s.cur a.1 = some p → (s.proc p).state ≠ .unused := fun p hp =>
    (hi.live _ p (hi.cur _ p hp)).1
  cases (hi.outcome ht).change with
  | same hp he _ => exact ⟨hp ▸ h.unused, hp ▸ he ▸ h.hit, hargs⟩
  | run q x hx hst _ _ hs =>
    refine h.sets_same hs ?_ (by rw [hx]) (by rw [hx]) hargs
    rcases hst with hst | hst <;> simp [hst]
  | sleep p ch lk rest _ _ hs | zombie p status rest _ _ hs => exact h.sets_same hs (by simp) rfl rfl hargs
  | kill q pid rest hstk hpid hs =>
    have hu : (s.proc q).state ≠ .unused := fun hu => by
      rw [hp.unused q hu] at hpid
      exact h.args _ pid _ (hstk ▸ List.mem_cons_self) hpid.symm
    refine h.sets hs (fun hx => absurd hx ?_)
      (fun _ => .cons (.inl (by rw [← hpid]; rfl)) (hp.alive q hu).2) hargs
    simp only [Threads.kill]
    split_ifs with hsl
    · simp
    · exact hu
  | setkilled p hcur hs =>
    exact h.sets hs (fun hx => absurd hx (hlive p hcur))
      (fun _ => .cons (.inr rfl) (hp.alive p (hlive p hcur)).2) hargs
  | alloc q rest _ hu hproc he _ =>
    refine ⟨fun q' hu' => ?_, fun q' hk => ?_, hargs⟩
    · by_cases hq : q' = q
      · rw [hq, hproc, update_self] at hu'
        cases hu'
      · rw [hproc, update_of_ne hq] at hu' ⊢
        exact h.unused q' hu'
    · rw [he]
      by_cases hq : q' = q
      · rw [hq, hproc, update_self] at hk
        exact absurd hk (by simp [h.unused q hu])
      · rw [hproc, update_of_ne hq] at hk ⊢
        exact (h.hit q' hk).append [_]
  | abort q rest _ hs | reap p q addr rest _ _ _ hs _ =>
    exact h.sets hs (fun _ => rfl) (fun hk => by cases hk) hargs
  | parent p q rest hcur hstk hs =>
    have hu : (s.proc q).state = .used :=
      hi.child p q _ (thread_some hcur ▸ hstk ▸ List.mem_cons_self) rfl
    exact h.sets_same hs (by simp [hu]) rfl rfl hargs
  | reparent p q status rest _ _ hpar hs _ _ =>
    have hu : (s.proc q).state ≠ .unused := fun hu => by
      rw [hp.unused q hu] at hpar
      cases hpar
    exact h.sets_same hs hu rfl rfl hargs

structure KillOk (code : L → Instr Λ γ L D X) (s : Sys n κ Λ γ L D) : Prop where
  hit : ∀ q, (s.proc q).killed = true →
    (s.proc q).state ≠ .unused ∧ Hit s.events (s.proc q).pid
  unique : ∀ q q', (s.proc q).state ≠ .unused → (s.proc q).pid = (s.proc q').pid → q = q'
  fresh : ∀ a t, Targeted code s a → step code s a = some t → t.nextpid ≠ s.nextpid →
    ∃ q, t.proc q = { state := .used, pid := s.nextpid }
  found : ∀ a t pid, Targeted code s a → step code s a = some t → t.events = .killed pid :: s.events →
    ∃ q, (s.proc q).state ≠ .unused ∧ ((s.proc q).pid : Int) = pid

theorem KillInv.killOk (h : KillInv s) (hp : PidInv s) (hi : Inv (fun _ _ => True) s) :
    KillOk code s := by
  refine ⟨fun q hk => ⟨fun hu => ?_, h.hit q hk⟩,
    fun q q' hu he => hp.unique q q' he (hp.alive q hu).1,
    fun a t hok ht hn => ?_, fun a t pid hok ht he => ?_⟩
  · rw [h.unused q hu] at hk
    cases hk
  · cases (hi.outcome ht).change with
    | alloc q rest _ hu hproc _ _ =>
      refine ⟨q, ?_⟩
      rw [hproc, update_self, hp.unused q hu, h.unused q hu]
    | same _ _ hn' => exact absurd hn' hn
    | run _ _ _ _ _ _ hs | sleep _ _ _ _ _ _ hs | kill _ _ _ _ _ hs | setkilled _ _ hs | abort _ _ _ hs
    | parent _ _ _ _ _ hs | reparent _ _ _ _ _ _ _ hs _ _ | zombie _ _ _ _ _ hs | reap _ _ _ _ _ _ _ hs _ =>
      exact absurd hs.nextpid hn
  · have hlen := congrArg List.length he
    cases (hi.outcome ht).change with
    | kill q pid' rest hstk hpid hs =>
      have hpp : pid' = pid := by
        rw [hs.events] at he
        simpa using he
      refine ⟨q, fun hu => ?_, hpid.trans hpp⟩
      rw [hp.unused q hu] at hpid
      exact h.args _ pid' _ (hstk ▸ List.mem_cons_self) hpid.symm
    | same _ he' _ => simp [he'] at hlen
    | run _ _ _ _ _ _ hs | sleep _ _ _ _ _ _ hs | abort _ _ _ hs | parent _ _ _ _ _ hs
    | reparent _ _ _ _ _ _ _ hs _ _ => simp [hs.events] at hlen
    | setkilled _ _ hs | zombie _ _ _ _ _ hs | reap _ _ _ _ _ _ _ hs _ => simp [hs.events] at he
    | alloc _ _ _ _ _ he' _ => simp [he'] at he

/-- Any number of processes and CPUs, any other kernel code: if `kkill` is never called with pid 0, it
only hits its target. -/
theorem kill_hits_target {p : Fin n} {d : D} {as : List (κ × Op L X)}
    (hrun : Run (step code) (Targeted code) (init p d) as s) : KillOk code s := by
  have hinv : Inv (fun _ _ => True) s ∧ PidInv s ∧ KillInv s := by
    refine hrun.invariant (I := fun s => Inv (fun _ _ => True) s ∧ PidInv s ∧ KillInv s)
      (fun s a t hs hok ht => ?_) ⟨.init p d, .init p d, .init p d⟩
    exact ⟨(hs.1.step .any hok.1 (fun _ _ => trivial) ht).inv,
      hs.2.1.change hs.1 (hs.1.outcome ht).change, hs.2.2.step hs.2.1 hs.1 hok.2 ht⟩
  exact hinv.2.2.killOk hinv.2.1 hinv.1

end Steps

def killRun : List (Bool × Op Nat Unit) :=
  go false 3 ++ (false, .kfork) :: go false 9 ++ (false, .kkill 2) :: go false 4

theorem kill_hits_target_child : ∃ s : Sys 2 Bool Unit Unit Nat Unit,
    Run (step handshake) (Targeted handshake) (init 0 ()) killRun s ∧
      ((s.proc 1).killed = true ∧ (s.proc 1).pid = 2) ∧ KillOk handshake s := by
  have hrun : ∃ s : Sys 2 Bool Unit Unit Nat Unit,
      Run (step handshake) (Targeted handshake) (init 0 ()) killRun s ∧
        (s.proc 1).killed = true ∧ (s.proc 1).pid = 2 := Run.exists_of_outcome (by decide +kernel)
  obtain ⟨s, hrun, hs⟩ := hrun
  exact ⟨s, hrun, hs, kill_hits_target hrun⟩

def killZeroRun : List (Bool × Op Nat Unit) :=
  go false 3 ++ (false, .kkill 0) :: go false 4 ++ (false, .kfork) :: go false 9

/-- `kkill(0)` finds a free slot and returns 0; the next process there starts killed. -/
theorem kill_zero_hits_next : ∃ s : Sys 2 Bool Unit Unit Nat Unit,
    Run (step handshake) (SleepsAlone handshake) (init 0 ()) killZeroRun s ∧
      (s.proc 1).state = .runnable ∧ (s.proc 1).killed = true ∧ (s.proc 1).pid = 2 ∧
      s.events = [.allocated 2, .killed 0, .allocated 1] :=
  Run.exists_of_outcome (by decide +kernel)

end Xv6.Threads
