import Xv6.Children

namespace Xv6.Threads

open Function

variable {n : Nat} {κ Λ γ L D X : Type}

def WakesParent (rest : List (Frame n Λ γ L)) : Prop :=
  ∃ status b r, rest = .kexit status b :: r ∧ (b = .lock ∨ ∃ i, b = .reparent i)

/-- A zombie's parent that is asleep in `kwait` is just being woken. -/
structure WaitInv (s : Sys n κ Λ γ L D) : Prop where
  alive : (s.proc s.initproc).state.live = true
  child : ∀ q p, (s.proc q).parent = some p → (s.proc p).state.live = true
  stays : ∀ status b, .kexit status b ∉ s.stack (.proc s.initproc)
  known : ∀ c p, s.cur c = some p → Known s p
  swept : ∀ p, Swept s (.proc p) WakesParent
  woken : ∀ c p p' status b rest, s.cur c = some p → s.stack (.proc p) = .kexit status b :: rest →
    b = .lock ∨ b = .zombie → (s.proc p).parent = some p' → ¬ Committed s (.proc p') p'
  asleep : ∀ p q, ZombieChild s.proc p q → Committed s (.proc p) p →
    ∃ c a rest, s.stack (s.thread c) = .wakeup (some (.proc p)) a :: rest ∧ WakesParent rest

variable {A : L → List (Lock n Λ) → Prop} {s t : Sys n κ Λ γ L D} {c : κ} {p q : Fin n}
  {rest old : List (Frame n Λ γ L)} {l : List (Lock n Λ)} {k : Lock n Λ}

theorem WakesParent.holds {o : Option (Fin n)} (hw : WakesParent rest) (hfit : Fits A o l rest) :
    .wait ∈ l := by
  obtain ⟨status, b, r, rfl, rfl | ⟨i, rfl⟩⟩ := hw
  · cases o with
    | none => exact hfit.1.elim
    | some p =>
      cases hfit.1
      exact List.mem_cons_self
  · cases o with
    | none => exact hfit.1.elim
    | some p =>
      cases hfit.1
      exact List.mem_cons_self

theorem WakesParent.locked (h : Inv A s) {ch : Option (Chan n γ)} {a : ScanAt n}
    (hstk : s.stack (s.thread c) = .wakeup ch a :: rest) (hw : WakesParent rest) :
    s.lock .wait = some c := by
  obtain ⟨l, hl, hfit⟩ := h.cpu c
  rw [hstk] at hfit
  obtain ⟨l', hsub, hfit'⟩ := hfit.of_wakeup
  exact (hl.mem _).mpr (hsub (hw.holds hfit'))

section Changes

variable (h : Inv A s) (hch : Change s c t)
include h hch

theorem Change.live (hl : (s.proc p).state.live = true) : (t.proc p).state.live = true ∨
    s.cur c = some p ∧ ∃ status rest, s.stack (s.thread c) = .kexit status .zombie :: rest := by
  have hset : ∀ q x es, Sets s t q x es → (q = p → x.state.live = true) →
      (t.proc p).state.live = true := by
    intro q x es hs hx
    by_cases hq : p = q
    · rw [hq, hs.self]
      exact hx hq.symm
    · rw [hs.of_ne hq]
      exact hl
  have hdead : ∀ q, (s.proc q).state.live = false → q ≠ p := by
    rintro q hq rfl
    rw [hl] at hq
    cases hq
  cases hch with
  | same hp _ _ => exact .inl (hp ▸ hl)
  | run q x _ hst _ _ hs =>
    refine .inl (hset q x _ hs fun _ => ?_)
    rcases hst with hst | hst <;> rw [hst] <;> rfl
  | sleep q ch lk rest _ _ hs => exact .inl (hset q _ _ hs fun _ => rfl)
  | kill q pid rest _ _ hs =>
    refine .inl (hset q _ _ hs fun hq => ?_)
    subst hq
    simp only [Threads.kill]
    split_ifs
    · rfl
    · exact hl
  | setkilled q _ hs | parent p' q rest _ _ hs | reparent p' q status rest _ _ _ hs _ _ =>
    exact .inl (hset q _ _ hs fun hq => hq ▸ hl)
  | alloc q rest _ hu hp _ _ =>
    have hne : p ≠ q := (hdead q (by rw [hu]; rfl)).symm
    exact .inl (by rw [hp, update_of_ne hne]; exact hl)
  | abort q rest hstk hs =>
    refine .inl (hset q _ _ hs fun hq => absurd hq (hdead q ?_))
    cases hcur : s.cur c with
    | none =>
      obtain ⟨l, -, hfit⟩ := h.cpu c
      rw [hstk, hcur] at hfit
      exact hfit.1.elim
    | some p' =>
      rw [h.child p' q _ (thread_some hcur ▸ hstk ▸ List.mem_cons_self) rfl]
      rfl
  | zombie q status rest hcur hstk hs =>
    by_cases hq : q = p
    · exact .inr ⟨hq ▸ hcur, status, rest, hstk⟩
    · exact .inl (hset q _ _ hs fun he => absurd he hq)
  | reap p' q addr rest _ _ hz hs _ =>
    exact .inl (hset q _ _ hs fun hq => absurd hq (hdead q (by rw [hz]; rfl)))

omit h in
theorem Change.parent_of (hp : (t.proc q).parent = some p) : (s.proc q).parent = some p ∨
    (s.cur c = some p ∧ ∃ r rest, s.stack (s.thread c) = .kfork (.parent r) :: rest) ∨
    p = s.initproc ∧ ∃ status i rest, s.stack (s.thread c) = .kexit status (.reparent i) :: rest := by
  have hset : ∀ r x es, Sets s t r x es → (r = q → x.parent = some p → (s.proc q).parent = some p) →
      (s.proc q).parent = some p := by
    intro r x es hs hx
    by_cases hq : q = r
    · rw [hq, hs.self] at hp
      exact hx hq.symm hp
    · rwa [hs.of_ne hq] at hp
  cases hch with
  | same he _ _ => exact .inl (he ▸ hp)
  | run r x hx _ _ _ hs =>
    refine .inl (hset r x _ hs fun hr hp => ?_)
    rw [hx] at hp
    exact hr ▸ hp
  | sleep r ch lk rest _ _ hs | kill r pid rest _ _ hs | setkilled r _ hs | zombie r status rest _ _ hs =>
    exact .inl (hset r _ _ hs fun hr hp => hr ▸ hp)
  | alloc r rest _ _ he _ _ =>
    by_cases hq : q = r
    · rw [he, hq, update_self] at hp
      exact .inl (hq ▸ hp)
    · rw [he, update_of_ne hq] at hp
      exact .inl hp
  | abort r rest _ hs | reap p' r addr rest _ _ _ hs _ => exact .inl (hset r _ _ hs fun _ hp => by cases hp)
  | parent p' r rest hcur hstk hs =>
    by_cases hq : q = r
    · rw [hq, hs.self] at hp
      cases hp
      exact .inr (.inl ⟨hcur, r, rest, hstk⟩)
    · exact .inl (hset r _ _ hs fun hr => absurd hr.symm hq)
  | reparent p' r status rest _ hstk _ hs _ _ =>
    by_cases hq : q = r
    · rw [hq, hs.self] at hp
      cases hp
      exact .inr (.inr ⟨rfl, status, r, rest, hstk⟩)
    · exact .inl (hset r _ _ hs fun hr => absurd hr.symm hq)

theorem ZombieChild.of_change (hz : ZombieChild t.proc p q) : ZombieChild s.proc p q ∨
    (∃ status i rest, s.stack (s.thread c) = .kexit status (.reparent i) :: rest ∧
      t.cur = s.cur ∧ t.stack (s.thread c) = .wakeup (some (.proc p)) (.next 0) ::
        .kexit status (.reparent (i + 1)) :: rest) ∨
    s.cur c = some q ∧ (s.proc q).parent = some p ∧
      ∃ status rest, s.stack (s.thread c) = .kexit status .zombie :: rest := by
  by_cases hw : s.lock .wait = some c
  · have hset : ∀ r x es, Sets s t r x es → (r = q → x.parent = some p → x.state = .zombie →
        ZombieChild s.proc p q) → ZombieChild s.proc p q := by
      intro r x es hs hx
      by_cases hq : q = r
      · rw [ZombieChild, hq, hs.self] at hz
        exact hx hq.symm hz.1 hz.2
      · rwa [ZombieChild, hs.of_ne hq] at hz
    cases hch with
    | parent p' r rest hcur hstk hs =>
      have hu := h.child p' r _ (thread_some hcur ▸ hstk ▸ List.mem_cons_self) rfl
      exact .inl (hset r _ _ hs fun _ _ hst => by simp [hu] at hst)
    | reparent p' r status rest _ hstk _ hs hnew hcur =>
      by_cases hq : q = r
      · rw [ZombieChild, hq, hs.self] at hz
        cases hz.1
        exact .inr (.inl ⟨status, r, rest, hstk, hcur, hnew⟩)
      · exact .inl (hset r _ _ hs fun hr => absurd hr.symm hq)
    | zombie r status rest hcur hstk hs =>
      by_cases hq : q = r
      · rw [ZombieChild, hq, hs.self] at hz
        exact .inr (.inr ⟨hq ▸ hcur, hq ▸ hz.1, status, rest, hstk⟩)
      · exact .inl (hset r _ _ hs fun hr => absurd hr.symm hq)
    | reap p' r addr rest _ _ _ hs _ | sleep r ch lk rest _ _ hs | abort r rest _ hs =>
      exact .inl (hset r _ _ hs fun _ _ hst => by cases hst)
    | same he _ _ => exact .inl (he ▸ hz)
    | run r x _ hst _ _ hs =>
      refine .inl (hset r x _ hs fun _ _ hx => ?_)
      rcases hst with hst | hst <;> simp [hx] at hst
    | kill r pid rest _ _ hs =>
      refine .inl (hset r _ _ hs fun hr hp hst => ⟨hr ▸ hp, ?_⟩)
      simp only [Threads.kill] at hst
      split_ifs at hst
      exact hr ▸ hst
    | setkilled r _ hs => exact .inl (hset r _ _ hs fun hr hp hst => ⟨hr ▸ hp, hr ▸ hst⟩)
    | alloc r rest _ _ he _ _ =>
      by_cases hq : q = r
      · rw [ZombieChild, he, hq, update_self] at hz
        cases hz.2
      · rw [ZombieChild, he, update_of_ne hq] at hz
        exact .inl hz
  · have hq := hch.quiet h hw
    exact .inl ⟨hq.parent q p hz.1, hq.zombie q hz.2⟩

end Changes

theorem Committed.of_quiet (h : Inv A s) (ha : After A s c t) (ho : Outcome s c t)
    (hw : s.lock .wait ≠ some c) (hc : Committed t (.proc p) q) : Committed s (.proc p) q := by
  refine (hc.of_step h ha ho).resolve_right ?_
  rintro ⟨hcur, lk, rest, hstk⟩
  obtain ⟨l, hl, hfit⟩ := h.fits hcur hstk
  cases hfit.sleep_proc
  cases hfit.1
  exact hw ((hl.mem _).mpr (by simp [SleepAt.locks]))

theorem Flow.top {g : Frame n Λ γ L} (hflow : Flow old (g :: rest))
    (hfit : Fits A (some p) l old) (hg : ¬ Fits A (some p) [] (g :: rest)) :
    (∃ f r, old = f :: r ∧ (f = g ∨ f.goes g ∨ f.calls g)) ∨
      (∃ ch a, old = .wakeup ch a :: g :: rest) ∨ ∃ ch lk a, old = .sleep ch lk a :: g :: rest := by
  cases hflow with
  | halt => exact .inl ⟨g, rest, rfl, .inl rfl⟩
  | go f _ r hold hf => exact .inl ⟨f, _, hold, .inr (.inl hf)⟩
  | call f f' _ r hold _ hc => exact .inl ⟨f, r, hold, .inr (.inr hc)⟩
  | ret f _ hold =>
    subst hold
    cases f with
    | wakeup ch a => exact .inr (.inl ⟨ch, a, rfl⟩)
    | sleep ch lk a => exact .inr (.inr ⟨ch, lk, a, rfl⟩)
    | client x | clientKilled x | yield a => exact absurd hfit.2.2.2.2 hg
    | scheduler a => exact hfit.1.elim
    | user => cases hfit.2
    | _ =>
      cases hfit.2
      exact absurd ⟨rfl, rfl⟩ hg

theorem Flow.kexit_top {status : Int} {b : ExitAt}
    (hflow : Flow old (.kexit status b :: rest)) (hfit : Fits A (some p) l old)
    (hb : b = .lock ∨ b = .zombie) : (∃ status' b' r, old = .kexit status' b' :: r) ∨
      ∃ ch a r, old = .wakeup ch a :: r := by
  have hnil : ¬ Fits A (some p) [] (.kexit status b :: rest) := by
    rcases hb with rfl | rfl <;> exact fun hf => by cases hf.1
  rcases hflow.top hfit hnil with ⟨f, r, hold, hf⟩ | ⟨ch, a, hold⟩ | ⟨ch, lk, a, rfl⟩
  · cases f with
    | kexit status' b' => exact .inl ⟨status', b', r, hold⟩
    | _ => rcases hf with hf | hf | hf <;> cases hf
  · exact .inr ⟨ch, a, _, hold⟩
  · exact hfit.2.2.2.1.elim

theorem Flow.kwait_top {addr : Nat} {r : Int}
    (hflow : Flow old (.kwait addr (.done r) :: rest)) (hfit : Fits A (some p) l old) :
    ∃ b r, old = .kwait addr b :: r := by
  have hnil : ¬ Fits A (some p) [] (.kwait addr (.done r) :: rest) := fun hf => by cases hf.1
  rcases hflow.top hfit hnil with ⟨f, r, hold, hf⟩ | ⟨ch, a, rfl⟩ | ⟨ch, lk, a, rfl⟩
  · cases f with
    | kwait addr' b =>
      rcases hf with hf | hf | hf
      · cases hf
        exact ⟨_, r, hold⟩
      · cases hf
        exact ⟨b, r, hold⟩
      · exact hf.elim
    | _ => rcases hf with hf | hf | hf <;> cases hf
  · exact hfit.2.2.2.1.elim
  · exact hfit.2.2.2.1.elim

theorem WaitInv.init (p : Fin n) (d : D) : WaitInv (init p d : Sys n κ Λ γ L D) := by
  have hproc : ∀ q, ((Threads.init p d : Sys n κ Λ γ L D).proc q).parent = none ∧
      ((Threads.init p d : Sys n κ Λ γ L D).proc q).state ≠ .zombie := by
    intro q
    by_cases hq : q = p
    · rw [hq]
      simp [Threads.init]
    · simp [Threads.init, update_of_ne hq]
  refine ⟨?_, fun q p' hp => ?_, fun status b hm => ?_, fun c p' hc => ?_,
    fun p' c a rest hs => ?_, fun c p' _ _ _ _ hc => ?_, fun p' q hz => absurd hz.2 (hproc q).2⟩
  · simp [Threads.init, ProcState.live]
  · rw [(hproc q).1] at hp
    cases hp
  · simp [Threads.init] at hm
  · cases hc
  · cases hs
  · cases hc

variable [DecidableEq κ] [DecidableEq Λ]

theorem kexitStep_lock {status status' : Int} {b b' : ExitAt} {r : List (Frame n Λ γ L)} (h : Inv A s)
    (hcur : s.cur c = some p) (hstk : s.stack (s.thread c) = .kexit status b :: rest)
    (ht : kexitStep s c p rest status b = some t) (hcur' : t.cur c = some p)
    (hnew : t.stack (s.thread c) = .kexit status' b' :: r) (hb : b' = .lock ∨ b' = .zombie) :
    b = .lock ∧ t.proc = s.proc := by
  have hacquire : ∀ k x, s.acquire c k (fun s => s.goto c (.kexit status x :: rest)) = some t →
      t.proc = s.proc ∧ (b' = b ∨ b' = x) := by
    intro k x ht
    unfold Sys.acquire at ht
    split_ifs at ht
    · cases ht
      cases hstk.symm.trans hnew
      exact ⟨rfl, .inl rfl⟩
    · cases ht
      cases goto_stack.symm.trans hnew
      exact ⟨rfl, .inr rfl⟩
  cases b with
  | waitLock => obtain ⟨-, rfl | rfl⟩ := hacquire .wait _ ht <;> simp at hb
  | reparent i =>
    rw [kexitStep] at ht
    split_ifs at ht
    · cases ht
      cases (update_self ..).symm.trans hnew
    · cases ht
      cases goto_stack.symm.trans hnew
      simp at hb
    · cases ht
      cases goto_stack.symm.trans hnew
      simp at hb
  | wake =>
    cases ht
    cases goto_stack.symm.trans hnew
  | lock => exact ⟨rfl, (hacquire _ _ ht).1⟩
  | zombie =>
    obtain ⟨l, hl, hlocks, -⟩ := h.fits hcur hstk
    cases hlocks
    have hlock : s.lock .wait = some c := (hl.mem _).mpr (by simp [ExitAt.locks])
    rw [kexitStep, Sys.release, if_pos (show (s.setProc p { s.proc p with
      xstate := status
      state := .zombie }).lock .wait = some c from hlock)] at ht
    cases ht
    cases (update_self ..).symm.trans hnew
    simp at hb
  | sched =>
    have hpanic : ∀ m, t ≠ s.panic m := by
      rintro m rfl
      cases hstk.symm.trans hnew
      simp at hb
    rw [kexitStep, Option.some.injEq, Sys.sched] at ht
    split_ifs at ht
    · exact absurd ht.symm (hpanic _)
    · exact absurd ht.symm (hpanic _)
    · exact absurd ht.symm (hpanic _)
    · rw [← ht] at hcur'
      cases (update_self ..).symm.trans hcur'
  | gone =>
    cases ht
    cases hstk.symm.trans hnew
    simp at hb

section Steps

variable [DecidableEq γ] {code : L → Instr Λ γ L D X} {a : κ × Op L X} (h : Inv A s)
  (ha : After A s a.1 t) (ht : step code s a = some t) (hw : WaitInv s)
include h ha ht hw

theorem WaitInv.asleep_step (hz : ZombieChild t.proc p q) (hc : Committed t (.proc p) p) :
    ∃ c a rest, t.stack (t.thread c) = .wakeup (some (.proc p)) a :: rest ∧ WakesParent rest := by
  have ho := h.outcome ht
  rcases hc.of_step h ha ho with hcs | ⟨hcur, lk, rest, hstk⟩
  · rcases ZombieChild.of_change h ho.change hz with hzs | ⟨status, i, rest, -, hcur, hnew⟩ |
      ⟨hcur, hp, status, rest, hstk⟩
    · obtain ⟨c, b, rest, hstk, hrest⟩ := hw.asleep p q hzs hcs
      obtain ⟨b', hnew⟩ := (hw.swept p).goes h ha ht hstk hrest (hrest.locked h hstk) hcs
      exact ⟨c, b', rest, hnew, hrest⟩
    · refine ⟨a.1, .next 0, .kexit status (.reparent (i + 1)) :: rest, ?_, status, _, rest, rfl,
        .inr ⟨i + 1, rfl⟩⟩
      simp only [Sys.thread, hcur]
      exact hnew
    · exact absurd hcs (hw.woken a.1 q p status .zombie rest hcur (thread_some hcur ▸ hstk) (.inr rfl) hp)
  · exfalso
    have hk := hw.known a.1 p hcur
    rw [Known, ← thread_some hcur, hstk] at hk
    rcases ZombieChild.of_change h ho.change hz with hzs | ⟨status, i, r, hr, -⟩ | ⟨-, -, status, r, hr⟩
    · exact hk q hzs
    · rw [hstk] at hr
      cases hr
    · rw [hstk] at hr
      cases hr

theorem WaitInv.stays_step (status : Int) (b : ExitAt) : .kexit status b ∉ t.stack (.proc t.initproc) := by
  have ho := h.outcome ht
  rw [ho.initproc]
  intro hm
  by_cases hcur : s.cur a.1 = some s.initproc
  · rw [← thread_some hcur] at hm
    have hold : ∀ b, .kexit status b ∉ s.stack (s.thread a.1) := by
      rw [thread_some hcur]
      exact hw.stays status
    rcases step_cases ht with ⟨ok, f, rest, -, hstk, hgo⟩ | ⟨v, x, rest, -, hstk, hacc⟩ | hent
    · obtain ⟨b', hb'⟩ := (Effect.goStep h hstk hgo).flow.kexit hm
      exact hold b' hb'
    · obtain ⟨f, -, rfl⟩ := accessStep_cases hacc
      have hnew : .kexit status b ∈ .client (f v s.data).2 :: rest := by
        rwa [← @goto_stack _ _ _ _ _ _ a.1 (.client (f v s.data).2 :: rest) _
          { s with data := (f v s.data).1 }]
      rcases List.mem_cons.mp hnew with he | hm
      · cases he
      · exact hold b (hstk ▸ List.mem_cons_of_mem _ hm)
    · have hp := h.cur _ _ hcur
      cases hop : a.2 with
      | kexit status' =>
        rw [hop] at hent
        simp only [enterStep, Op.entry, hp, and_self, if_true] at hent
        split_ifs at hent
        cases hent
        exact hold b hm
      | _ =>
        rcases enterStep_cases hent with rfl | ⟨f, hf, -, rfl⟩
        · exact hold b hm
        · rw [goto_stack] at hm
          rcases List.mem_cons.mp hm with he | hm
          · rw [hop, ← he] at hf
            cases hf
          · exact hold b hm
  · have hne : Thread.proc s.initproc ≠ s.thread a.1 := fun he => hcur (Inv.thread_eq_proc he.symm)
    rcases ho.others _ hne with hsame | ⟨q, -, -, hnew⟩
    · rw [hsame] at hm
      exact hw.stays status b hm
    · rw [hnew] at hm
      simp at hm

theorem WaitInv.woken_step {p' : Fin n} {status : Int} {b : ExitAt} (hcur' : t.cur c = some p)
    (hnew : t.stack (.proc p) = .kexit status b :: rest) (hb : b = .lock ∨ b = .zombie)
    (hp : (t.proc p).parent = some p') : ¬ Committed t (.proc p') p' := by
  have ho := h.outcome ht
  intro hc
  by_cases hca : c = a.1
  · subst hca
    by_cases hcur : s.cur a.1 = some p
    · rw [← thread_some hcur] at hnew
      have hback : (∀ ch lk r, s.stack (s.thread a.1) ≠ .sleep ch lk .release :: r) →
          Committed s (.proc p') p' := fun hne =>
        (hc.of_step h ha ho).resolve_right fun ⟨_, lk, r, hr⟩ => hne _ lk r hr
      rcases step_cases ht with ⟨ok, f, r, -, hstk, hgo⟩ | ⟨v, x, r, -, hstk, hacc⟩ | hent
      · obtain ⟨l, hl, hfit⟩ := h.fits hcur hstk
        cases f with
        | kexit status' b' =>
          simp only [goStep, h.cur _ p hcur, procStep] at hgo
          obtain ⟨rfl, hproc⟩ := kexitStep_lock h hcur hstk hgo hcur' hnew hb
          refine hw.woken a.1 p p' status' .lock r hcur (thread_some hcur ▸ hstk) (.inl rfl) (hproc ▸ hp)
            (hback fun ch lk r' hr => ?_)
          cases hstk.symm.trans hr
        | wakeup ch b' =>
          obtain ⟨-, ⟨b', hb'⟩ | ⟨i, rfl, hi, rfl⟩⟩ := wakeupStep_goes hstk hgo
          · cases hb'.symm.trans hnew
          · cases goto_stack.symm.trans hnew
            have hk := hw.known a.1 p hcur
            rw [Known, ← thread_some hcur, hstk] at hk
            rcases hb with rfl | rfl
            · have hch : ch = some (.proc p') := hk.1.trans (by
                rw [show (s.proc p).parent = some p' from hp]
                rfl)
              rw [hch] at hstk
              refine (hw.swept p').done hstk ⟨status, .lock, rest, rfl, .inl rfl⟩ hi
                (hback fun ch lk r' hr => ?_)
              cases hstk.symm.trans hr
            · exact hfit.2.2.2.1
        | _ =>
          rcases (hnew ▸ (Effect.goStep h hstk hgo).flow).kexit_top (hstk ▸ hfit) hb with
            ⟨st, b', r', hr⟩ | ⟨ch, b', r', hr⟩
          · cases hstk.symm.trans hr
          · cases hstk.symm.trans hr
      · obtain ⟨f, -, rfl⟩ := accessStep_cases hacc
        cases (update_self ..).symm.trans hnew
      · rcases enterStep_cases hent with rfl | ⟨f, hf, -, rfl⟩
        · exact hw.woken a.1 p p' status b rest hcur (thread_some hcur ▸ hnew) hb hp hc
        · cases goto_stack.symm.trans hnew
          rcases hb with rfl | rfl <;> cases hop : a.2 <;> rw [hop] at hf <;> cases hf
    · obtain ⟨g, r, -, hg, hres⟩ := ha.picked_top h ho hcur' hcur
      cases hg.symm.trans hnew
      cases hres
  · have hcur : s.cur c = some p := ha.apart.cur c hca ▸ hcur'
    have hstk : s.stack (.proc p) = .kexit status b :: rest := by
      rw [← thread_some hcur, ← ha.other_stack h ho hca, thread_some hcur', hnew]
    have hwait : s.lock .wait ≠ some a.1 := by
      obtain ⟨l, hl, hlocks, -⟩ := h.fits hcur (thread_some hcur ▸ hstk)
      have hlock : s.lock .wait = some c := by
        rcases hb with rfl | rfl <;> cases hlocks <;> exact (hl.mem _).mpr (by simp [ExitAt.locks])
      rw [hlock]
      exact fun he => hca (Option.some.inj he)
    exact hw.woken c p p' status b rest hcur hstk hb ((ho.change.quiet h hwait).parent p p' hp)
      (hc.of_quiet h ha ho hwait)

omit ha in
theorem WaitInv.child_step (hp : (t.proc q).parent = some p) : (t.proc p).state.live = true := by
  have ho := h.outcome ht
  have hlive : (s.proc p).state.live = true := by
    rcases ho.change.parent_of hp with hps | ⟨hcur, r, rest, hstk⟩ | ⟨rfl, -⟩
    · exact hw.child q p hps
    · rw [h.state_running hcur hstk rfl]
      rfl
    · exact hw.alive
  refine (ho.change.live h hlive).resolve_right ?_
  rintro ⟨hcur, status, rest, hstk⟩
  have hk := hw.known a.1 p hcur
  rw [Known, ← thread_some hcur, hstk] at hk
  rcases ho.change.parent_of hp with hps | ⟨-, r, rest', hr⟩ | ⟨-, status', i, rest', hr⟩
  · exact hk q hps
  · cases hstk.symm.trans hr
  · cases hstk.symm.trans hr

theorem WaitInv.step : WaitInv t := by
  have ho := h.outcome ht
  refine ⟨?_, fun q p => hw.child_step h ht, hw.stays_step h ha ht,
    fun c p => Known.step h ha ht hw.stays hw.known, fun p => ?_,
    fun c p p' status b rest => hw.woken_step h ha ht, fun p q => hw.asleep_step h ha ht⟩
  · rw [ho.initproc]
    refine (ho.change.live h hw.alive).resolve_right ?_
    rintro ⟨hcur, status, rest, hstk⟩
    exact hw.stays status .zombie (thread_some hcur ▸ hstk ▸ List.mem_cons_self)
  · refine Swept.step h ha ht (fun o l rest hG hfit => hG.holds hfit) (fun lk rest hstk => ?_) (hw.swept p)
    obtain ⟨l, -, hfit⟩ := h.cpu a.1
    rw [hstk] at hfit
    cases hcur : s.cur a.1 with
    | none =>
      rw [hcur] at hfit
      exact hfit.1.elim
    | some p' =>
      rw [hcur] at hfit
      exact hfit.sleep_proc

end Steps

end Xv6.Threads
