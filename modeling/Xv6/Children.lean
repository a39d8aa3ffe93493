import Xv6.Sleepers

namespace Xv6.Threads

open Function

variable {n : Nat} {κ Λ γ L D X : Type}

def ProcState.live : ProcState → Bool
  | .sleeping => true
  | .runnable => true
  | .running => true
  | _ => false

section Table

variable (P : Fin n → Proc n γ) (p : Fin n)

def ZombieChild (q : Fin n) : Prop := (P q).parent = some p ∧ (P q).state = .zombie

/-- What `kwait` in process `p` has learned from the process table, while it holds `wait_lock`. -/
def WaitAt.Knows : WaitAt n → Prop
  | .scan i havekids => (∀ q, q.val < i → ¬ ZombieChild P p q) ∧
      (havekids = false → ∀ q, q.val < i → (P q).parent ≠ some p)
  | .locked q => (P q).parent = some p ∧ ∀ q', q'.val < q.val → ¬ ZombieChild P p q'
  | .killed => ∀ q, ¬ ZombieChild P p q
  | _ => True

/-- How far `kexit` in process `p` has given away its children. -/
def ExitAt.Knows : ExitAt → Prop
  | .reparent i => ∀ q, q.val < i → (P q).parent ≠ some p
  | .wake => ∀ q, (P q).parent ≠ some p
  | .lock => ∀ q, (P q).parent ≠ some p
  | .zombie => ∀ q, (P q).parent ≠ some p
  | _ => True

def Frame.Knows (initproc : Fin n) (rest : List (Frame n Λ γ L)) : Frame n Λ γ L → Prop
  | .kwait _ a => a.Knows P p
  | .kexit _ a => a.Knows P p
  | .sleep (.proc _) _ .acquire => ∀ q, ¬ ZombieChild P p q
  | .sleep (.proc _) _ .release => ∀ q, ¬ ZombieChild P p q
  | .wakeup ch _ =>
    match rest with
    | .kexit _ (.reparent i) :: _ => ch = some (.proc initproc) ∧ (ExitAt.reparent i).Knows P p
    | .kexit _ .lock :: _ => ch = (P p).parent.map .proc ∧ ExitAt.lock.Knows P p
    | _ => True
  | _ => True

def StackKnows (initproc : Fin n) : List (Frame n Λ γ L) → Prop
  | [] => True
  | f :: rest => f.Knows P p initproc rest

end Table

def Known (s : Sys n κ Λ γ L D) (p : Fin n) : Prop :=
  StackKnows s.proc p s.initproc (s.stack (.proc p))

variable {A : L → List (Lock n Λ) → Prop} {s t u : Sys n κ Λ γ L D} {c c' : κ} {p q i : Fin n}
  {f : Frame n Λ γ L} {rest stk : List (Frame n Λ γ L)} {k : Lock n Λ} {l : List (Lock n Λ)}
  {P P' : Fin n → Proc n γ}

theorem Fits.sleep_proc {a : SleepAt} {lk : Lock n Λ}
    (hfit : Fits A (some p) l (.sleep (.proc q) lk a :: rest)) : lk = .wait := by
  obtain ⟨-, -, -, hover, -⟩ := hfit
  simp only [Frame.Over] at hover
  split at hover
  · obtain ⟨_, _, hch, -⟩ := hover
    cases hch
  · obtain ⟨_, -, -, hlk⟩ := hover
    exact hlk
  · exact hover.elim

theorem StackKnows.of_free (hfit : Fits A (some p) l stk) (hl : .wait ∉ l) : StackKnows P p i stk := by
  cases stk with
  | nil => trivial
  | cons f rest =>
    cases f with
    | kwait addr a =>
      cases hfit.1
      cases a <;> first | trivial | simp [WaitAt.locks] at hl
    | kexit status a => cases a <;> first | trivial | (cases hfit.1; simp [ExitAt.locks] at hl)
    | sleep ch lk a =>
      cases ch with
      | client ch => trivial
      | proc q =>
        cases hfit.sleep_proc
        cases hfit.1
        cases a <;> first | trivial | simp [SleepAt.locks] at hl
    | wakeup ch a =>
      obtain ⟨l', hsub, hfit'⟩ := hfit.of_wakeup
      have hl' : .wait ∉ l' := fun hm => hl (hsub hm)
      cases rest with
      | nil => trivial
      | cons g r =>
        cases g with
        | kexit status a => cases a <;> first | trivial | (cases hfit'.1; simp [ExitAt.locks] at hl')
        | _ => trivial
    | _ => trivial

structure Quiet (s t : Sys n κ Λ γ L D) (c : κ) : Prop where
  parent : ∀ q p, (t.proc q).parent = some p → (s.proc q).parent = some p
  kept : ∀ q, (s.proc q).state ≠ .used ∨ s.lock (.proc q) ≠ some c →
    (t.proc q).parent = (s.proc q).parent
  zombie : ∀ q, (t.proc q).state = .zombie → (s.proc q).state = .zombie

theorem Quiet.sets {x : Proc n γ} {es : List Event} (hs : Sets s t q x es)
    (hpar : x.parent = (s.proc q).parent) (hst : x.state = .zombie → (s.proc q).state = .zombie) :
    Quiet s t c := by
  have hparent : ∀ q', (t.proc q').parent = (s.proc q').parent := by
    intro q'
    by_cases hq : q' = q
    · rw [hq, hs.self, hpar]
    · rw [hs.of_ne hq]
  refine ⟨fun q' p' hp => hparent q' ▸ hp, fun q' _ => hparent q', fun q' hz => ?_⟩
  by_cases hq : q' = q
  · rw [hq, hs.self] at hz
    rw [hq]
    exact hst hz
  · rwa [hs.of_ne hq] at hz

theorem Change.quiet (h : Inv A s) (hch : Change s c t) (hw : s.lock .wait ≠ some c) : Quiet s t c := by
  have hholds : ∀ p f rest, s.cur c = some p → s.stack (s.thread c) = f :: rest →
      (∀ l, f.Holds A (some p) l → .wait ∈ l) → False := by
    intro p f rest hcur hstk hf
    obtain ⟨l, hl, hfit⟩ := h.fits hcur hstk
    exact hw ((hl.mem _).mpr (hf l hfit.1))
  cases hch with
  | same hp _ _ => exact ⟨fun _ _ hq => hp ▸ hq, fun _ _ => by rw [hp], fun _ hz => hp ▸ hz⟩
  | run q x hx hst _ _ hs =>
    refine .sets hs (by rw [hx]) fun hz => ?_
    rcases hst with hst | hst <;> simp [hz] at hst
  | sleep p ch lk rest _ _ hs => exact .sets hs rfl fun hz => by cases hz
  | kill q pid rest _ _ hs =>
    refine .sets hs rfl fun hz => ?_
    simp only [Threads.kill] at hz
    split_ifs at hz
    exact hz
  | setkilled p _ hs => exact .sets hs rfl id
  | alloc q rest _ _ hproc he hn =>
    obtain ⟨hself, hne⟩ := eq_update_iff.mp hproc
    have hparent : ∀ q', (t.proc q').parent = (s.proc q').parent := by
      intro q'
      by_cases hq : q' = q
      · rw [hq, hself]
      · rw [hne q' hq]
    refine ⟨fun q' p' hp => hparent q' ▸ hp, fun q' _ => hparent q', fun q' hz => ?_⟩
    by_cases hq : q' = q
    · rw [hq, hself] at hz
      cases hz
    · rwa [hne q' hq] at hz
  | abort q rest hstk hs =>
    refine ⟨fun q' p' hp => ?_, fun q' hor => ?_, fun q' hz => ?_⟩
    · by_cases hq : q' = q
      · rw [hq, hs.self] at hp
        cases hp
      · rwa [hs.of_ne hq] at hp
    · obtain rfl | hq := eq_or_ne q' q
      · exfalso
        cases hcur : s.cur c with
        | none =>
          obtain ⟨l, -, hfit⟩ := h.cpu c
          rw [hstk, hcur] at hfit
          exact hfit.1
        | some p =>
          obtain ⟨l, hl, hlocks, -⟩ := h.fits hcur hstk
          cases hlocks
          rcases hor with hor | hor
          · exact hor (h.child p q' _ (thread_some hcur ▸ hstk ▸ List.mem_cons_self) rfl)
          · exact hor ((hl.mem _).mpr List.mem_cons_self)
      · rw [hs.of_ne hq]
    · by_cases hq : q' = q
      · rw [hq, hs.self] at hz
        cases hz
      · rwa [hs.of_ne hq] at hz
  | parent p q rest hcur hstk hs =>
    exact (hholds p _ _ hcur hstk fun l hl => by cases hl; simp [ForkAt.locks]).elim
  | reparent p q status rest hcur hstk _ hs _ _ | zombie p status rest hcur hstk hs =>
    exact (hholds p _ _ hcur hstk fun l hl => by cases hl; simp [ExitAt.locks]).elim
  | reap p q addr rest hcur hstk _ hs _ =>
    exact (hholds p _ _ hcur hstk fun l hl => by cases hl; simp [WaitAt.locks]).elim

theorem Known.quiet (h : Inv A s) (hcur : s.cur c' = some p) (hne : c' ≠ c) (hq : Quiet s t c)
    (hinit : t.initproc = s.initproc) (hstk : t.stack (.proc p) = s.stack (.proc p))
    (hk : Known s p) : Known t p := by
  have hz : ∀ q, ¬ ZombieChild s.proc p q → ¬ ZombieChild t.proc p q := fun q hn ht =>
    hn ⟨hq.parent q p ht.1, hq.zombie q ht.2⟩
  have hp : ∀ q, (s.proc q).parent ≠ some p → (t.proc q).parent ≠ some p := fun q hn ht =>
    hn (hq.parent q p ht)
  have hself : (t.proc p).parent = (s.proc p).parent :=
    hq.kept p (.inl (h.live c' p (h.cur c' p hcur)).2)
  unfold Known at hk ⊢
  rw [hstk, hinit]
  generalize hold : s.stack (.proc p) = stk at hk
  cases stk with
  | nil => trivial
  | cons f rest =>
    cases f with
    | kwait addr a =>
      cases a with
      | scan i havekids => exact ⟨fun q hi => hz q (hk.1 q hi), fun hh q hi => hp q (hk.2 hh q hi)⟩
      | locked q =>
        have hlock : s.lock (.proc q) ≠ some c := by
          obtain ⟨l, hl, hlocks, -⟩ := h.fits hcur (thread_some hcur ▸ hold)
          cases hlocks
          rw [(hl.mem _).mpr List.mem_cons_self]
          exact fun he => hne (Option.some.inj he)
        exact ⟨(hq.kept q (.inr hlock)).trans hk.1, fun q' hi => hz q' (hk.2 q' hi)⟩
      | killed => exact fun q => hz q (hk q)
      | _ => trivial
    | kexit status a =>
      cases a with
      | reparent i => exact fun q hi => hp q (hk q hi)
      | wake | lock | zombie => exact fun q => hp q (hk q)
      | _ => trivial
    | sleep ch lk a =>
      cases ch with
      | client ch => trivial
      | proc q =>
        cases a with
        | acquire | release => exact fun q => hz q (hk q)
        | _ => trivial
    | wakeup ch a =>
      cases rest with
      | nil => trivial
      | cons g r =>
        cases g with
        | kexit status a =>
          cases a with
          | reparent i => exact ⟨hk.1, fun q hi => hp q (hk.2 q hi)⟩
          | lock => exact ⟨hk.1.trans (by rw [hself]), fun q => hp q (hk.2 q)⟩
          | _ => trivial
        | _ => trivial
    | _ => trivial

section Own

def Frame.waits : Frame n Λ γ L → Bool
  | .kwait _ _ => true
  | .kexit _ _ => true
  | .sleep _ _ _ => true
  | .wakeup _ _ => true
  | _ => false

theorem StackKnows.of_not_waits (hf : f.waits = false) : StackKnows P p i (f :: rest) := by
  cases f <;> trivial

theorem Frame.goes.waits {f' : Frame n Λ γ L} (h : f.goes f') (hf : f.waits = false) :
    f'.waits = false := by
  cases f <;> cases f' <;> first | rfl | exact h.elim | cases hf

theorem Known.flow (h : Inv A s) (ht : Inv A t) (hcur : s.cur c = some p) (hcur' : t.cur c = some p)
    (hstk : s.stack (s.thread c) = f :: rest) (hf : f.waits = false)
    (hflow : Flow (s.stack (s.thread c)) (t.stack (s.thread c))) : Known t p := by
  rw [thread_some hcur] at hflow
  unfold Known
  obtain ⟨l, hl, hfit⟩ := h.fits hcur hstk
  obtain ⟨l', hl', hfit'⟩ := ht.cpu c
  rw [hcur', thread_some hcur'] at hfit'
  rw [thread_some hcur] at hstk
  generalize t.stack (.proc p) = new at hflow hfit' ⊢
  cases hflow with
  | halt =>
    rw [hstk]
    exact .of_not_waits hf
  | go g g' r hold hg =>
    cases hstk.symm.trans hold
    exact .of_not_waits (hg.waits hf)
  | call g g' k r hold hg hc =>
    cases hstk.symm.trans hold
    cases f with
    | client x =>
      cases g' with
      | client y =>
        cases k with
        | sleep ch lk a =>
          obtain ⟨-, -, -, ⟨ch', lk', rfl, -⟩, -⟩ := hfit'
          trivial
        | wakeup ch a => trivial
        | _ => exact hc.elim
      | clientKilled y =>
        cases k with
        | sleep ch lk a => exact hfit'.2.2.2.1.elim
        | wakeup ch a => trivial
        | _ => exact hc.elim
      | _ => exact hg.elim
    | _ => first | exact hc.elim | cases hf
  | ret g r hold =>
    cases hstk.symm.trans hold
    cases f with
    | client x | clientKilled x | yield a => exact .of_free hfit.2.2.2.2 List.not_mem_nil
    | scheduler a => exact hfit.1.elim
    | kwait addr a => cases hf
    | kexit status a => cases hf
    | sleep ch lk a => cases hf
    | wakeup ch a => cases hf
    | _ =>
      cases hfit.2
      trivial

variable [DecidableEq κ]

theorem Known.goto (hcur : u.cur c = some p) (hk : StackKnows u.proc p u.initproc stk) :
    Known (u.goto c stk) p := by
  have hstk : (u.goto c stk).stack (.proc p) = stk := by
    rw [← thread_some hcur]
    exact goto_stack
  unfold Known
  rw [hstk]
  exact hk

variable [DecidableEq Λ]

theorem Known.acquire (hcur : s.cur c = some p) (hs : Known s p)
    (ht : s.acquire c k (fun s => s.goto c stk) = some t) (hk : StackKnows s.proc p s.initproc stk) :
    Known t p := by
  unfold Sys.acquire at ht
  split_ifs at ht
  · cases ht
    exact hs
  · cases ht
    exact .goto hcur hk

theorem Known.release (hcur : s.cur c = some p) (hs : Known s p)
    (hk : StackKnows s.proc p s.initproc stk) : Known (s.release c k fun s => s.goto c stk) p := by
  unfold Sys.release
  split_ifs
  · exact .goto hcur hk
  · exact hs

theorem Known.kwaitStep {ok : Bool} {addr : Nat} {a : WaitAt n} (h : Inv A s) (hcur : s.cur c = some p)
    (hstk : s.stack (s.thread c) = .kwait addr a :: rest) (hs : Known s p)
    (ht : kwaitStep s c p rest ok addr a = some t) : Known t p := by
  obtain ⟨l, hl, hlocks, hrest⟩ := h.fits hcur hstk
  cases hlocks
  cases hrest
  have hk : a.Knows s.proc p := by
    unfold Known at hs
    rwa [← thread_some hcur, hstk] at hs
  cases a with
  | lock => exact hs.acquire hcur ht ⟨fun q hq => absurd hq (Nat.not_lt_zero _),
      fun _ q hq => absurd hq (Nat.not_lt_zero _)⟩
  | scan i havekids =>
    rw [Threads.kwaitStep] at ht
    split_ifs at ht with hi hp hh
    · exact hs.acquire hcur ht ⟨hp, hk.1⟩
    · cases ht
      have hnot : ∀ q : Fin n, q.val < i + 1 → q.val < i ∨ (s.proc q).parent ≠ some p := by
        intro q hq
        rcases Nat.lt_succ_iff_lt_or_eq.mp hq with hlt | heq
        · exact .inl hlt
        · cases (Fin.ext heq : q = ⟨i, hi⟩)
          exact .inr hp
      exact .goto hcur ⟨fun q hq => (hnot q hq).elim (hk.1 q) fun hn hz => hn hz.1,
        fun hh q hq => (hnot q hq).elim (hk.2 hh q) id⟩
    · exact hs.acquire hcur ht fun q => hk.1 q (Nat.lt_of_lt_of_le q.isLt (Nat.le_of_not_lt hi))
    · cases ht
      exact .goto hcur trivial
  | locked q =>
    have hlock : s.lock (.proc q) = some c := (hl.mem _).mpr List.mem_cons_self
    rw [Threads.kwaitStep] at ht
    split_ifs at ht with hz
    · cases ht
      exact hs.release hcur trivial
    · rw [Sys.release, if_pos (show (s.setProc q {}).lock (.proc q) = some c from hlock)] at ht
      cases ht
      exact .goto hcur trivial
    · cases ht
      refine hs.release hcur ⟨fun q' hq' => ?_, fun hh => by cases hh⟩
      rcases Nat.lt_succ_iff_lt_or_eq.mp hq' with hlt | heq
      · exact hk.2 q' hlt
      · cases Fin.ext heq
        exact fun hzc => hz hzc.2
  | killed =>
    cases ht
    unfold Sys.release
    split_ifs
    · refine .goto hcur ?_
      split_ifs
      · trivial
      · exact hk
    · exact hs
  | done r =>
    cases ht
    exact hs.release hcur trivial

theorem Known.kexitStep {status : Int} {a : ExitAt} (h : Inv A s) (hcur : s.cur c = some p)
    (hstk : s.stack (s.thread c) = .kexit status a :: rest) (hs : Known s p) (hp : p ≠ s.initproc)
    (ht : kexitStep s c p rest status a = some t) (hcur' : t.cur c = some p) : Known t p := by
  obtain ⟨l, hl, hlocks, hrest⟩ := h.fits hcur hstk
  cases hrest
  have hk : a.Knows s.proc p := by
    unfold Known at hs
    rwa [← thread_some hcur, hstk] at hs
  cases a with
  | waitLock => exact hs.acquire hcur ht fun q hq => absurd hq (Nat.not_lt_zero _)
  | reparent i =>
    have hsucc : ∀ (P : Fin n → Proc n γ) (hi : i < n), (∀ q, q.val < i → (P q).parent ≠ some p) →
        (P ⟨i, hi⟩).parent ≠ some p → ∀ q, q.val < i + 1 → (P q).parent ≠ some p := by
      intro P hi hP hlast q hq
      rcases Nat.lt_succ_iff_lt_or_eq.mp hq with hlt | heq
      · exact hP q hlt
      · cases (Fin.ext heq : q = ⟨i, hi⟩)
        exact hlast
    rw [Threads.kexitStep] at ht
    split_ifs at ht with hi hpar
    · cases ht
      refine .goto hcur ⟨rfl, hsucc _ hi (fun q hq => ?_) ?_⟩
      · have hne : q ≠ ⟨i, hi⟩ := fun he => by
          rw [he] at hq
          exact Nat.lt_irrefl _ hq
        simp only [Sys.setProc, update_of_ne hne]
        exact hk q hq
      · simp only [Sys.setProc, update_self]
        exact fun he => hp (Option.some.inj he).symm
    · cases ht
      exact .goto hcur (hsucc _ hi hk hpar)
    · cases ht
      exact .goto hcur fun q => hk q (Nat.lt_of_lt_of_le q.isLt (Nat.le_of_not_lt hi))
  | wake =>
    cases ht
    exact .goto hcur ⟨rfl, hk⟩
  | lock => exact hs.acquire hcur ht hk
  | zombie =>
    cases hlocks
    have hlock : s.lock .wait = some c := (hl.mem _).mpr (by simp [ExitAt.locks])
    rw [Threads.kexitStep, Sys.release, if_pos (show (s.setProc p { s.proc p with
      xstate := status
      state := .zombie }).lock .wait = some c from hlock)] at ht
    cases ht
    exact .goto hcur trivial
  | sched =>
    cases ht
    unfold Sys.sched at hcur' ⊢
    split_ifs at hcur' ⊢
    · exact hs
    · exact hs
    · exact hs
    · cases (update_self ..).symm.trans hcur'
  | gone => exact hlocks.elim

theorem Known.sleepStep {ch : Chan n γ} {lk : Lock n Λ} {a : SleepAt} (h : Inv A s)
    (hcur : s.cur c = some p) (hstk : s.stack (s.thread c) = .sleep ch lk a :: rest) (hs : Known s p)
    (ht : sleepStep s c p rest ch lk a = some t) (hcur' : t.cur c = some p) : Known t p := by
  obtain ⟨l, hl, hlocks, -, -, hover, -⟩ := h.fits hcur hstk
  cases hlocks
  have hk : StackKnows s.proc p s.initproc (.sleep ch lk a :: rest) := by
    unfold Known at hs
    rwa [← thread_some hcur, hstk] at hs
  cases a with
  | acquire => 
    refine hs.acquire hcur ht ?_
    cases ch <;> exact hk
  | release =>
    cases ht
    exact hs.release hcur (by cases ch <;> trivial)
  | sched =>
    cases ht
    unfold Sys.sched at hcur' ⊢
    have hpanic : ∀ x msg, Known ((s.setProc p x).panic msg) p := by
      intro x msg
      unfold Known
      have hst : ((s.setProc p x).panic msg).stack (.proc p) = .sleep ch lk .sched :: rest := by
        rw [← hstk, thread_some hcur]
        rfl
      rw [hst]
      cases ch <;> trivial
    split_ifs at hcur' ⊢
    · exact hpanic _ _
    · exact hpanic _ _
    · exact hpanic _ _
    · cases (update_self ..).symm.trans hcur'
  | tidy =>
    have hlock : s.lock (.proc p) = some c := (hl.mem _).mpr List.mem_cons_self
    rw [Threads.sleepStep, Sys.release,
      if_pos (show (s.setProc p { s.proc p with chan := none }).lock (.proc p) = some c from hlock)] at ht
    cases ht
    exact .goto hcur (by cases ch <;> trivial)
  | reacquire =>
    refine hs.acquire hcur ht ?_
    simp only [Frame.Over] at hover
    split at hover
    · trivial
    · exact ⟨fun q hq => absurd hq (Nat.not_lt_zero _), fun _ q hq => absurd hq (Nat.not_lt_zero _)⟩
    · exact hover.elim

theorem Known.wakeupStep [DecidableEq γ] {ch : Option (Chan n γ)} {a : ScanAt n} (h : Inv A s)
    (hcur : s.cur c = some p) (hstk : s.stack (s.thread c) = .wakeup ch a :: rest) (hs : Known s p)
    (ht : wakeupStep s c rest ch a = some t) : Known t p := by
  obtain ⟨l, hl, hholds, -, -, hover, -⟩ := h.fits hcur hstk
  have hk : StackKnows s.proc p s.initproc (.wakeup ch a :: rest) := by
    unfold Known at hs
    rwa [← thread_some hcur, hstk] at hs
  cases a with
  | next i =>
    rw [Threads.wakeupStep] at ht
    split_ifs at ht with hi hself
    · cases ht
      exact .goto hcur hk
    · exact hs.acquire hcur ht hk
    · cases ht
      refine .goto hcur ?_
      simp only [Frame.Over] at hover
      split at hover
      · trivial
      · exact hk.2
      · exact hk.2
      · exact hover.elim
  | locked q =>
    have hlock : s.lock (.proc q) = some c := (hl.mem _).mpr (List.mem_of_head? hholds)
    rw [Threads.wakeupStep, Sys.release,
      if_pos (show (s.setProc q (wake ch (s.proc q))).lock (.proc q) = some c from hlock)] at ht
    cases ht
    refine .goto hcur ?_
    have hparent : ∀ q', ((s.setProc q (wake ch (s.proc q))).proc q').parent = (s.proc q').parent := by
      intro q'
      by_cases hq : q' = q
      · simp only [hq, Sys.setProc, update_self, wake]
        split_ifs <;> rfl
      · simp only [Sys.setProc, update_of_ne hq]
    cases rest with
    | nil => trivial
    | cons g r =>
      cases g with
      | kexit status a =>
        cases a with
        | reparent i => exact ⟨hk.1, fun q' hq' => hparent q' ▸ hk.2 q' hq'⟩
        | lock => exact ⟨hk.1.trans (by rw [← hparent]; rfl), fun q' => hparent q' ▸ hk.2 q'⟩
        | _ => trivial
      | _ => trivial

variable [DecidableEq γ] {code : L → Instr Λ γ L D X} {a : κ × Op L X}

theorem Known.own (h : Inv A s) (ha : After A s a.1 t) (ht : Threads.step code s a = some t)
    (hinit : ∀ status b, .kexit status b ∉ s.stack (.proc s.initproc)) (hcur : s.cur a.1 = some p)
    (hcur' : t.cur a.1 = some p) (hk : Known s p) : Known t p := by
  have hp := h.cur _ p hcur
  rcases step_cases ht with ⟨ok, f, rest, -, hstk, hgo⟩ | ⟨v, x, rest, -, hstk, hacc⟩ | hent
  · have hflow := (Effect.goStep h hstk hgo).flow
    cases f with
    | kwait addr b =>
      simp only [goStep, hp, procStep] at hgo
      exact hk.kwaitStep h hcur hstk hgo
    | kexit status b =>
      simp only [goStep, hp, procStep] at hgo
      refine hk.kexitStep h hcur hstk (fun he => hinit status b ?_) hgo hcur'
      rw [← he, ← thread_some hcur, hstk]
      exact List.mem_cons_self
    | sleep ch lk b =>
      simp only [goStep, hp, procStep] at hgo
      exact hk.sleepStep h hcur hstk hgo hcur'
    | wakeup ch b => exact hk.wakeupStep h hcur hstk hgo
    | _ => exact .flow h ha.inv hcur hcur' hstk rfl hflow
  · obtain ⟨f, -, rfl⟩ := accessStep_cases hacc
    exact .goto hcur trivial
  · rcases enterStep_cases hent with rfl | ⟨f, hf, -, rfl⟩
    · exact hk
    · refine .goto hcur ?_
      cases hop : a.2 <;> rw [hop] at hf <;> cases hf <;> trivial

theorem Known.step (h : Inv A s) (ha : After A s a.1 t) (ht : Threads.step code s a = some t)
    (hinit : ∀ status b, .kexit status b ∉ s.stack (.proc s.initproc))
    (hk : ∀ c p, s.cur c = some p → Known s p) (hcur' : t.cur c = some p) : Known t p := by
  have ho := h.outcome ht
  by_cases hc : c = a.1
  · subst hc
    by_cases hcur : s.cur a.1 = some p
    · exact .own h ha ht hinit hcur hcur' (hk _ p hcur)
    · obtain ⟨g, r, -, hg, hres⟩ := ha.picked_top h ho hcur' hcur
      unfold Known
      rw [hg]
      cases g with
      | yield b => trivial
      | forkret => trivial
      | sleep ch lk b => cases ch <;> cases b <;> trivial
      | _ => cases hres
  · have hcur : s.cur c = some p := ha.apart.cur c hc ▸ hcur'
    have hstk : t.stack (.proc p) = s.stack (.proc p) := by
      rw [← thread_some hcur', ha.other_stack h ho hc, thread_some hcur, thread_some hcur']
    by_cases hw : s.lock .wait = some a.1
    · obtain ⟨l, hl, hfit⟩ := ha.inv.cpu c
      rw [hcur', thread_some hcur'] at hfit
      refine StackKnows.of_free hfit fun hm => ?_
      have hlock := (ha.apart.locks c .wait hc).mp ((hl.mem _).mpr hm)
      rw [hw] at hlock
      exact hc (Option.some.inj hlock).symm
    · exact (hk c p hcur).quiet h hcur hc (ho.change.quiet h hw) ho.initproc hstk

end Own

end Xv6.Threads
