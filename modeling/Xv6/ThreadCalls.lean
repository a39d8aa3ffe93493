import Xv6.ThreadFunctions

namespace Xv6.Threads

open Function

variable {n : Nat} {κ Λ γ L D X : Type} {A : L → List (Lock n Λ) → Prop}
  {s t : Sys n κ Λ γ L D} {c : κ} {l : List (Lock n Λ)} {f : Frame n Λ γ L}
  {rest stk : List (Frame n Λ γ L)} {p q : Fin n} {x : Proc n γ}

namespace Inv

theorem not_current (h : Inv A s) (hr : (s.proc q).state ≠ .running) (hz : (s.proc q).state ≠ .zombie) :
    ∀ c, s.cur c ≠ some q := by
  intro c hc
  rcases h.running_or_locked hc with hr' | ⟨hz', -, -⟩
  · exact hr hr'
  · exact hz hz'

theorem zombie_free (h : Inv A s) (hz : (s.proc q).state = .zombie) (hcur : s.cur c = some p)
    (hlock : s.lock (.proc q) = some c) (hexit : exiting (s.stack (s.thread c)) = false) :
    ∀ c', s.cproc c' ≠ some q := by
  intro c' hq
  by_cases hc' : s.cur c' = some q
  · rcases h.running_or_locked hc' with hr | ⟨-, hx, hl⟩
    · rw [hz] at hr
      cases hr
    · cases hlock.symm.trans hl
      rw [thread_some hc', hx] at hexit
      cases hexit
  · obtain ⟨hnone, -, hl⟩ := h.ran_locked hq hc'
    cases hlock.symm.trans hl
    rw [hcur] at hnone
    cases hnone

theorem runnable_free (h : Inv A s) (hr : (s.proc q).state = .runnable) (hnone : s.cproc c = none)
    (hlock : s.lock (.proc q) = some c) : ∀ c', s.cproc c' ≠ some q := by
  intro c' hq
  have hc' : s.cur c' ≠ some q := h.not_current (by simp [hr]) (by simp [hr]) c'
  obtain ⟨-, -, hl⟩ := h.ran_locked hq hc'
  cases hlock.symm.trans hl
  rw [hnone] at hq
  cases hq

variable [DecidableEq κ]

theorem alloc (h : Inv A s) (hq : (s.proc q).state = .unused) : Inv A (alloc s q) := by
  have hnot : ∀ c, s.cur c ≠ some q := h.not_current (by simp [hq]) (by simp [hq])
  have hfree : ∀ c, s.cproc c ≠ some q := fun c hc => (h.live c q hc).1 hq
  have hself : ((Threads.alloc s q).proc q).state = .used := by
    simp only [Threads.alloc, update_self]
  have hne : ∀ p, p ≠ q → (Threads.alloc s q).proc p = s.proc p := fun p hp =>
    update_of_ne hp ..
  have hstack : ∀ y, y ≠ Thread.proc q → (Threads.alloc s q).stack y = s.stack y := fun y hy =>
    update_of_ne hy ..
  have hproc : ∀ p, p ≠ q → (Threads.alloc s q).stack (.proc p) = s.stack (.proc p) := fun p hp =>
    hstack _ fun he => hp (Thread.proc.inj he)
  have hnew : (Threads.alloc s q).stack (.proc q) = [.forkret, .user] := update_self ..
  have hfrom : ∀ p q' f, f ∈ (Threads.alloc s q).stack (.proc p) → f.child = some q' →
      p ≠ q ∧ f ∈ s.stack (.proc p) := by
    intro p q' f hf hq'
    by_cases hp : p = q
    · rw [hp, hnew] at hf
      rcases List.mem_cons.mp hf with rfl | hf
      · cases hq'
      · cases List.mem_singleton.mp hf
        cases hq'
    · exact ⟨hp, hproc p hp ▸ hf⟩
  refine ⟨fun c => ?_, fun c => ?_, h.cur, h.once, fun c p hp => ?_, fun c p hp => ?_, fun p hp => ?_,
    fun p q' f hf hq' => ?_, fun p p' q' f f' hf hf' hq' hq'' => ?_⟩
  · obtain ⟨l, hl, hfit⟩ := h.cpu c
    refine ⟨l, ⟨hl.mem, hl.nodup, hl.noff⟩, ?_⟩
    rw [show (Threads.alloc s q).thread c = s.thread c from rfl,
      hstack _ fun he => hnot c (thread_eq_proc he)]
    exact hfit
  · rw [hstack _ (by simp)]
    exact h.ran c
  · rw [hne p fun he => hfree c (he ▸ hp)]
    exact h.live c p hp
  · have hpq : p ≠ q := fun he => hnot c (he ▸ hp)
    rw [hne p hpq, hproc p hpq]
    exact h.active c p hp
  · obtain rfl | hpq := eq_or_ne p q
    · rw [ParkedAs, hself]
      exact hnew
    · rw [hne p hpq, hproc p hpq]
      exact h.parked p hp
  · obtain ⟨-, hf⟩ := hfrom p q' f hf hq'
    have hu := h.child p q' f hf hq'
    rw [hne q' fun he => by simp [he, hq] at hu]
    exact hu
  · exact h.alone p p' q' f f' (hfrom p q' f hf hq').2 (hfrom p' q' f' hf' hq'').2 hq' hq''

end Inv

section Processes

variable [DecidableEq κ] (h : Inv A s) (hcur : s.cur c = some p)
include h hcur

theorem After.alloc (hstk : s.stack (s.thread c) = [.kfork (.scan (.locked q)), .user])
    (hl : Holding s c [.proc q]) (hq : (s.proc q).state = .unused) :
    After A s c ((alloc s q).goto c [.kfork (.copy q), .user]) := by
  have hi := h.alloc hq
  have hthread : (Threads.alloc s q).thread c = .proc p := thread_some hcur
  have hpq : p ≠ q := fun he => h.not_current (by simp [hq]) (by simp [hq]) c (he ▸ hcur)
  have hstk' : (Threads.alloc s q).stack (.proc p) = [.kfork (.scan (.locked q)), .user] := by
    rw [← hstk, thread_some hcur]
    exact update_of_ne (fun he => hpq (Thread.proc.inj he)) ..
  have hself : ((Threads.alloc s q).proc q).state = .used := by
    simp only [Threads.alloc, update_self]
  have hmine : ((Threads.alloc s q).goto c [.kfork (.copy q), .user]).stack (.proc p) =
      [.kfork (.copy q), .user] := by
    simp only [Sys.goto, hthread, update_self]
  have hsame : ∀ p', p' ≠ p → ((Threads.alloc s q).goto c [.kfork (.copy q), .user]).stack (.proc p') =
      (Threads.alloc s q).stack (.proc p') := fun p' hp' => by
    simp only [Sys.goto, hthread]
    exact update_of_ne (fun he => hp' (Thread.proc.inj he)) ..
  have hnone : ∀ p' f, p' ≠ p → f ∈ (Threads.alloc s q).stack (.proc p') → f.child ≠ some q := by
    intro p' f hp' hf hc
    by_cases hp'' : p' = q
    · have hnew : (Threads.alloc s q).stack (.proc p') = [.forkret, .user] := by
        rw [hp'']
        exact update_self ..
      rw [hnew] at hf
      rcases List.mem_cons.mp hf with rfl | hf
      · cases hc
      · cases List.mem_singleton.mp hf
        cases hc
    · have hold : (Threads.alloc s q).stack (.proc p') = s.stack (.proc p') :=
        update_of_ne (fun he => hp'' (Thread.proc.inj he)) ..
      have hu := h.child p' q f (hold ▸ hf) hc
      rw [hq] at hu
      cases hu
  have hcopy : ∀ f q', f ∈ ([.kfork (.copy q), .user] : List (Frame n Λ γ L)) → f.child = some q' →
      q' = q := by
    intro f q' hf hq'
    rcases List.mem_cons.mp hf with rfl | hf
    · exact (Option.some.inj hq').symm
    · cases List.mem_singleton.mp hf
      cases hq'
  refine ⟨hi.reshape rfl rfl rfl (fun _ _ _ hl' => ⟨hl'.mem, hl'.nodup, hl'.noff⟩)
    ⟨hl.mem, hl.nodup, hl.noff⟩ (?_ : Fits A (s.cur c) _ _) ?_ hi.live (fun c' p' hc' => ?_) hi.parked
    (fun p' q' f hf hq' => ?_) (fun p1 p2 q' f1 f2 hf1 hf2 hq1 hq2 => ?_),
    .of_eq rfl rfl (fun _ _ _ => .rfl) rfl⟩
  · rw [hcur]
    exact ⟨rfl, rfl⟩
  · rw [hthread, hstk']
    rfl
  · have hact := hi.active c' p' hc'
    by_cases hp' : p' = p
    · rw [hp', hmine]
      rw [hp', hstk'] at hact
      exact hact
    · rw [hsame p' hp']
      exact hact
  · by_cases hp' : p' = p
    · rw [hp', hmine] at hf
      rw [hcopy f q' hf hq']
      exact hself
    · rw [hsame p' hp'] at hf
      exact hi.child p' q' f hf hq'
  · by_cases hp1 : p1 = p
    · by_cases hp2 : p2 = p
      · rw [hp1, hp2]
      · rw [hp1, hmine] at hf1
        rw [hsame p2 hp2] at hf2
        rw [hcopy f1 q' hf1 hq1] at hq2
        exact absurd hq2 (hnone p2 f2 hp2 hf2)
    · rw [hsame p1 hp1] at hf1
      by_cases hp2 : p2 = p
      · rw [hp2, hmine] at hf2
        rw [hcopy f2 q' hf2 hq2] at hq1
        exact absurd hq1 (hnone p1 f1 hp1 hf1)
      · rw [hsame p2 hp2] at hf2
        exact hi.alone p1 p2 q' f1 f2 hf1 hf2 hq1 hq2

variable [DecidableEq Λ]

theorem After.leaveChild (hstk : s.stack (s.thread c) = [f, .user]) (hf : f.plain = true)
    (hq : f.child = some q) (hl : Holding s c [.proc q]) (hx : ParkedAs A q x [.forkret, .user]) :
    After A s c ((s.setProc q x).release c (.proc q) fun s => s.goto c [.user]) := by
  have hthread : s.thread c = .proc p := thread_some hcur
  rw [hthread] at hstk
  have hused : (s.proc q).state = .used := h.child p q f (hstk ▸ List.mem_cons_self) hq
  have hfree : ∀ c, s.cproc c ≠ some q := fun c hc => (h.live c q hc).2 hused
  have hnot : ∀ c, s.cur c ≠ some q := fun c hc => hfree c (h.cur c q hc)
  have hparked : s.stack (.proc q) = [.forkret, .user] := by
    have := h.parked q hnot
    rw [ParkedAs, hused] at this
    exact this
  have hlock : s.lock (.proc q) = some c := (hl.mem _).mpr List.mem_cons_self
  have hrel : (s.setProc q x).release c (.proc q) (fun s => s.goto c [.user]) =
      ((s.setProc q x).drop c (.proc q)).goto c [.user] := if_pos hlock
  rw [hrel]
  obtain ⟨t, ht⟩ : ∃ t, t = ((s.setProc q x).drop c (.proc q)).goto c [.user] := ⟨_, rfl⟩
  have htproc : t.proc = update s.proc q x := by
    rw [ht]
    rfl
  obtain ⟨hself, hne⟩ := eq_update_iff.mp htproc
  have htstack : t.stack = update s.stack (s.thread c) [.user] := by
    rw [ht]
    rfl
  have hmine : t.stack (.proc p) = [.user] := by rw [htstack, hthread, update_self]
  have hsame : ∀ p', p' ≠ p → t.stack (.proc p') = s.stack (.proc p') := fun p' hp' => by
    rw [htstack, hthread, update_of_ne fun he => hp' (Thread.proc.inj he)]
  have hfrom : ∀ p' q' g, g ∈ t.stack (.proc p') → g.child = some q' →
      p' ≠ p ∧ g ∈ s.stack (.proc p') := by
    intro p' q' g hg hq'
    by_cases hp' : p' = p
    · rw [hp', hmine] at hg
      cases List.mem_singleton.mp hg
      cases hq'
    · exact ⟨hp', hsame p' hp' ▸ hg⟩
  have hhold := hl.drop hlock
  have hcur' : t.cur = s.cur := by rw [ht]; rfl
  rw [← ht]
  refine ⟨h.reshape hcur' (by rw [ht]; rfl) htstack (fun c' l' hc hl' => ?_)
    (?_ : Holding t c []) ?_ ?_ (fun c' p' hp' => ?_) (fun c' p' hp' => ?_) (fun p' hp' => ?_)
    (fun p' q' g hg hq' => ?_) (fun p1 p2 q' g1 g2 hg1 hg2 hq1 hq2 => ?_),
    .of_eq hcur' (by rw [ht]; rfl) (fun _ _ hc => ht ▸ lock_drop (s := s) hlock hc) (by rw [ht]; rfl)⟩
  · have h' := hl'.drop_of_ne hlock hc
    exact ht ▸ ⟨h'.mem, h'.nodup, h'.noff⟩
  · rw [List.erase_cons_head] at hhold
    exact ht ▸ ⟨hhold.mem, hhold.nodup, hhold.noff⟩
  · rw [hcur]
    exact ⟨rfl, rfl⟩
  · rw [hthread, hstk, Frame.ranOf_cons hf]
    rfl
  · rw [hne p' fun he => hfree c' (he ▸ hp')]
    exact h.live c' p' hp'
  · have hact := h.active c' p' hp'
    rw [hne p' fun he => hnot c' (he ▸ hp')]
    by_cases hpp : p' = p
    · rw [hpp, hstk, Frame.exiting_cons hf] at hact
      rw [hpp, hmine]
      exact hact
    · rw [hsame p' hpp]
      exact hact
  · by_cases hpq : p' = q
    · rw [hpq, hself, hparked]
      exact hx
    · rw [hne p' hpq]
      exact h.parked p' hp'
  · obtain ⟨hpp, hg⟩ := hfrom p' q' g hg hq'
    have hqq : q' ≠ q := fun he =>
      hpp (h.alone p' p q g f hg (hstk ▸ List.mem_cons_self) (he ▸ hq') hq)
    rw [hne q' hqq]
    exact h.child p' q' g hg hq'
  · exact h.alone p1 p2 q' g1 g2 (hfrom p1 q' g1 hg1 hq1).2 (hfrom p2 q' g2 hg2 hq2).2 hq1 hq2

theorem After.kforkStep {ok : Bool} {a : ForkAt n} (hstk : s.stack (s.thread c) = .kfork a :: rest)
    (ht : kforkStep s c p rest ok a = some t) : After A s c t := by
  obtain ⟨l, hl, hlocks, rfl⟩ := h.fits hcur hstk
  cases hlocks
  cases a with
  | scan a =>
    cases a with
    | next i =>
      rw [Threads.kforkStep] at ht
      split_ifs at ht with hi
      · exact .acquire h hcur hl ht ⟨rfl, rfl⟩ (.top hstk rfl rfl (by simp [Frame.child]))
      · cases ht
        exact .goto h hcur hl ⟨rfl, rfl⟩ (.ret hstk rfl rfl rfl)
    | locked q =>
      rw [Threads.kforkStep] at ht
      split_ifs at ht with hq
      · cases ht
        exact .alloc h hcur hstk hl hq
      · cases ht
        refine .release h hcur hl ?_ (.top hstk rfl rfl (by simp [Frame.child]))
        rw [ForkAt.locks, ScanAt.locks, List.erase_cons_head]
        exact ⟨rfl, rfl⟩
  | copy q =>
    rw [Threads.kforkStep] at ht
    split_ifs at ht with hok
    · cases ht
      refine .release h hcur hl ?_ (.top hstk rfl rfl fun q hq => hq)
      rw [ForkAt.locks, List.erase_cons_head]
      exact ⟨rfl, rfl⟩
    · cases ht
      exact .leaveChild h hcur hstk rfl rfl hl trivial
  | waitLock q | lock q => exact .acquire h hcur hl ht ⟨rfl, rfl⟩ (.top hstk rfl rfl fun q hq => hq)
  | parent q =>
    cases ht
    refine .setProc_release (h.setProc_same rfl rfl) hcur hl ?_ (.top hstk rfl rfl fun q hq => hq)
    rw [ForkAt.locks, List.erase_cons_head]
    exact ⟨rfl, rfl⟩
  | run q =>
    cases ht
    exact .leaveChild h hcur hstk rfl rfl hl ⟨.forkret, _, rfl, rfl, rfl, rfl⟩

theorem After.zombie {status : Int} (hstk : s.stack (s.thread c) = [.kexit status .zombie, .user])
    (hl : Holding s c [.proc p, .wait]) (hx : x.state = .zombie) {e : Sys n κ Λ γ L D → Event} :
    After A s c ((s.setProc p x).release c .wait fun s =>
      (s.log (e s)).goto c [.kexit status .sched, .user]) := by
  have hthread : s.thread c = .proc p := thread_some hcur
  have hlock : s.lock .wait = some c := (hl.mem _).mpr (by simp)
  obtain ⟨t, ht⟩ : ∃ t, t = (s.setProc p x).release c .wait fun s =>
      (s.log (e s)).goto c [.kexit status .sched, .user] := ⟨_, rfl⟩
  rw [Sys.release, if_pos (show (s.setProc p x).lock .wait = some c from hlock)] at ht
  have htproc : t.proc = update s.proc p x := by
    rw [ht]
    rfl
  obtain ⟨hself, hne⟩ := eq_update_iff.mp htproc
  have htstack : t.stack = update s.stack (s.thread c) [.kexit status .sched, .user] := by
    rw [ht]
    rfl
  have hmine : t.stack (.proc p) = [.kexit status .sched, .user] := by
    rw [htstack, hthread, update_self]
  have hsame : ∀ p', p' ≠ p → t.stack (.proc p') = s.stack (.proc p') := fun p' hp' => by
    rw [htstack, hthread, update_of_ne fun he => hp' (Thread.proc.inj he)]
  have hfrom : ∀ p' q' g, g ∈ t.stack (.proc p') → g.child = some q' → g ∈ s.stack (.proc p') := by
    intro p' q' g hg hq'
    by_cases hp' : p' = p
    · rw [hp', hmine] at hg
      rcases List.mem_cons.mp hg with rfl | hg
      · cases hq'
      · cases List.mem_singleton.mp hg
        cases hq'
    · exact hsame p' hp' ▸ hg
  have hcur' : t.cur = s.cur := by rw [ht]; rfl
  have hcproc' : t.cproc = s.cproc := by rw [ht]; rfl
  rw [Sys.release, if_pos (show (s.setProc p x).lock .wait = some c from hlock), ← ht]
  refine ⟨h.reshape hcur' hcproc' htstack (fun c' l' hc hl' => ?_) (?_ : Holding t c [.proc p]) ?_ ?_
    (fun c' p' hp' => ?_) (fun c' p' hp' => ?_) (fun p' hp' => ?_) (fun p' q' g hg hq' => ?_)
    (fun p1 p2 q' g1 g2 hg1 hg2 hq1 hq2 => ?_),
    .of_eq hcur' hcproc' (fun _ _ hc => ht ▸ lock_drop (s := s) hlock hc) (by rw [ht]; rfl)⟩
  · have h' := hl'.drop_of_ne hlock hc
    exact ht ▸ ⟨h'.mem, h'.nodup, h'.noff⟩
  · have h' := hl.drop hlock
    rw [List.erase_cons_tail (by simp), List.erase_cons_head] at h'
    exact ht ▸ ⟨h'.mem, h'.nodup, h'.noff⟩
  · rw [hcur]
    exact ⟨rfl, rfl⟩
  · rw [hstk]
    rfl
  · by_cases hpp : p' = p
    · rw [hpp, hself]
      simp [hx]
    · rw [hne p' hpp]
      exact h.live c' p' hp'
  · by_cases hpp : p' = p
    · rw [hpp, hself, hmine]
      exact hx
    · rw [hne p' hpp, hsame p' hpp]
      exact h.active c' p' hp'
  · rw [hne p' fun he => hp' c (he ▸ hcur)]
    exact h.parked p' hp'
  · have hu := h.child p' q' g (hfrom p' q' g hg hq') hq'
    rw [hne q' fun he => (h.live c p (h.cur c p hcur)).2 (he ▸ hu)]
    exact hu
  · exact h.alone p1 p2 q' g1 g2 (hfrom p1 q' g1 hg1 hq1) (hfrom p2 q' g2 hg2 hq2) hq1 hq2

theorem After.kexitStep {status : Int} {a : ExitAt} (hstk : s.stack (s.thread c) = .kexit status a :: rest)
    (ht : kexitStep s c p rest status a = some t) : After A s c t := by
  obtain ⟨l, hl, hlocks, rfl⟩ := h.fits hcur hstk
  cases a with
  | waitLock | lock =>
    cases hlocks
    exact .acquire h hcur hl ht ⟨rfl, rfl⟩ (.top hstk rfl rfl (by simp [Frame.child]))
  | reparent i =>
    cases hlocks
    rw [Threads.kexitStep] at ht
    split_ifs at ht with hi hp
    · cases ht
      exact .setProc (.goto (h.setProc_same rfl rfl) hcur ⟨hl.mem, hl.nodup, hl.noff⟩
        ⟨trivial, rfl, rfl, trivial, rfl, rfl⟩ (.call hstk rfl rfl rfl (by simp [Frame.child]))) rfl
    · cases ht
      exact .goto h hcur hl ⟨rfl, rfl⟩ (.top hstk rfl rfl (by simp [Frame.child]))
    · cases ht
      exact .goto h hcur hl ⟨rfl, rfl⟩ (.top hstk rfl rfl (by simp [Frame.child]))
  | wake =>
    cases hlocks
    cases ht
    exact .goto h hcur hl ⟨trivial, rfl, rfl, trivial, rfl, rfl⟩
      (.call hstk rfl rfl rfl (by simp [Frame.child]))
  | zombie =>
    cases hlocks
    cases ht
    exact .zombie h hcur hstk hl rfl
  | sched =>
    cases hlocks
    cases ht
    have hstk' : s.stack (.proc p) = [.kexit status .sched, .user] := thread_some hcur ▸ hstk
    have hz : (s.proc p).state = .zombie := by
      rw [h.active c p hcur, hstk']
      rfl
    have hself : s.setProc p (s.proc p) = s := by rw [Sys.setProc, update_eq_self]
    have hpark : ParkedAs A p (s.proc p) [.kexit status .gone, .user] := by
      rw [ParkedAs, hz]
      exact ⟨status, _, rfl⟩
    have := After.sched h hcur hl (.inr (.inr hz)) hpark fun f hf q hq => by
      rcases List.mem_cons.mp hf with rfl | hf
      · cases hq
      · cases List.mem_singleton.mp hf
        cases hq
    rwa [hself] at this
  | gone => exact hlocks.elim

theorem After.kwaitStep {ok : Bool} {addr : Nat} {a : WaitAt n}
    (hstk : s.stack (s.thread c) = .kwait addr a :: rest)
    (ht : kwaitStep s c p rest ok addr a = some t) : After A s c t := by
  obtain ⟨l, hl, hlocks, rfl⟩ := h.fits hcur hstk
  cases hlocks
  cases a with
  | lock => exact .acquire h hcur hl ht ⟨rfl, rfl⟩ (.top hstk rfl rfl (by simp [Frame.child]))
  | scan i havekids =>
    rw [Threads.kwaitStep] at ht
    split_ifs at ht with hi hp hk
    · exact .acquire h hcur hl ht ⟨rfl, rfl⟩ (.top hstk rfl rfl (by simp [Frame.child]))
    · cases ht
      exact .goto h hcur hl ⟨rfl, rfl⟩ (.top hstk rfl rfl (by simp [Frame.child]))
    · exact .acquire h hcur hl ht ⟨rfl, rfl⟩ (.top hstk rfl rfl (by simp [Frame.child]))
    · cases ht
      exact .goto h hcur hl ⟨rfl, rfl⟩ (.top hstk rfl rfl (by simp [Frame.child]))
  | locked q =>
    have hfit : ∀ b : WaitAt n, (b.locks p : List (Lock n Λ)) = [.wait] →
        Fits A (some p) ((WaitAt.locks p (.locked q)).erase (.proc q))
          ([.kwait addr b, .user] : List (Frame n Λ γ L)) := by
      intro b hb
      rw [WaitAt.locks, List.erase_cons_head]
      exact ⟨hb.symm, rfl⟩
    rw [Threads.kwaitStep] at ht
    split_ifs at ht with hz hcopy
    · cases ht
      exact .release h hcur hl (hfit _ rfl) (.top hstk rfl rfl (by simp [Frame.child]))
    · cases ht
      have hlock : s.lock (.proc q) = some c := (hl.mem _).mpr List.mem_cons_self
      have hfree := h.zombie_free hz hcur hlock (by rw [hstk]; rfl)
      refine .setProc_release_log (h.setProc (fun c' hc' => absurd (h.cur c' q hc') (hfree c'))
        (fun c' hc' => absurd hc' (hfree c')) (fun _ => trivial) (fun hu => ?_)) hcur hl (hfit _ rfl)
        (.top hstk rfl rfl (by simp [Frame.child]))
      rw [hz] at hu
      cases hu
    · cases ht
      exact .release h hcur hl (hfit _ rfl) (.top hstk rfl rfl (by simp [Frame.child]))
  | killed =>
    have herase : (WaitAt.locks p .killed : List (Lock n Λ)).erase (.proc p) = [.wait] :=
      List.erase_cons_head ..
    cases ht
    refine .release_of h fun hlock => ?_
    change After A s c (((s.drop c _).goto c (if (s.proc p).killed then _ else _)))
    cases (s.proc p).killed with
    | true =>
      exact .drop h hcur hl hlock (herase ▸ ⟨rfl, rfl⟩) (.top hstk rfl rfl (by simp [Frame.child]))
    | false =>
      exact .drop h hcur hl hlock (herase ▸ ⟨rfl, rfl, rfl, ⟨p, rfl, rfl, rfl⟩, rfl, rfl⟩)
        (.call hstk rfl rfl rfl (by simp [Frame.child]))
  | done r =>
    cases ht
    refine .release h hcur hl ?_ (.ret hstk rfl rfl rfl)
    rw [WaitAt.locks, List.erase_cons_head]
    exact ⟨rfl, rfl⟩

end Processes

end Xv6.Threads
