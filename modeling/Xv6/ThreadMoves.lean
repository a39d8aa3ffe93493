import Xv6.ThreadInvariant

namespace Xv6.Threads

open Function

variable {n : Nat} {κ Λ γ L D X : Type} {A : L → List (Lock n Λ) → Prop} {s t : Sys n κ Λ γ L D}
  {c c' : κ} {l : List (Lock n Λ)} {stk rest : List (Frame n Λ γ L)} {f f' : Frame n Λ γ L}

def otherPanics : List String := ["acquire", "release", "init exiting"]

/-- What a step of CPU `c` leaves alone: the processes of the other CPUs, and its own until it is back
in the scheduler. -/
structure Apart (s t : Sys n κ Λ γ L D) (c : κ) : Prop where
  cur : ∀ c', c' ≠ c → t.cur c' = s.cur c'
  cproc : ∀ c', c' ≠ c → t.cproc c' = s.cproc c'
  kept : ∀ p, s.cproc c = some p → s.cur c = some p → t.cproc c = some p
  picked : ∀ p, t.cur c = some p → s.cur c = some p ∨ (s.proc p).state = .runnable
  locks : ∀ c' k, c' ≠ c → (t.lock k = some c' ↔ s.lock k = some c')
  panic : ∀ msg, t.panicked = some msg → s.panicked = some msg ∨ msg ∈ otherPanics

theorem Apart.of_eq (hcur : t.cur = s.cur) (hcproc : t.cproc = s.cproc)
    (hlocks : ∀ c' k, c' ≠ c → (t.lock k = some c' ↔ s.lock k = some c'))
    (hpanic : t.panicked = s.panicked) : Apart s t c := by
  refine ⟨fun c' _ => by rw [hcur], fun c' _ => by rw [hcproc], fun p hp _ => by rw [hcproc, hp],
    fun p hp => .inl (hcur ▸ hp), hlocks, fun msg hm => ?_⟩
  rw [hpanic] at hm
  exact .inl hm

/-- A change of stack that neither enters nor leaves the last part of `kexit` or the scheduler's
switch, and brings no new process. -/
structure Moves (s : Sys n κ Λ γ L D) (c : κ) (stk : List (Frame n Λ γ L)) : Prop where
  ran : ranOf stk = ranOf (s.stack (s.thread c))
  exiting : exiting stk = exiting (s.stack (s.thread c))
  child : ∀ f ∈ stk, ∀ q, f.child = some q → ∃ f' ∈ s.stack (s.thread c), f'.child = some q

def Frame.plain : Frame n Λ γ L → Bool
  | .kexit _ .sched => false
  | .scheduler (.ran _) => false
  | _ => true

theorem Frame.ranOf_cons (hf : f.plain = true) (rest : List (Frame n Λ γ L)) :
    ranOf (f :: rest) = none := by
  unfold ranOf
  split
  · next heq =>
    cases heq
    cases hf
  · rfl

theorem Frame.exiting_cons (hf : f.plain = true) (rest : List (Frame n Λ γ L)) :
    Threads.exiting (f :: rest) = false := by
  unfold Threads.exiting
  split
  · next heq =>
    cases heq
    cases hf
  · rfl

theorem Moves.top (hstk : s.stack (s.thread c) = f :: rest) (hf : f.plain = true) (hf' : f'.plain = true)
    (hc : ∀ q, f'.child = some q → f.child = some q) : Moves s c (f' :: rest) := by
  refine ⟨?_, ?_, fun g hg q hq => ?_⟩
  · rw [hstk, Frame.ranOf_cons hf, Frame.ranOf_cons hf']
  · rw [hstk, Frame.exiting_cons hf, Frame.exiting_cons hf']
  · rw [hstk]
    rcases List.mem_cons.mp hg with rfl | hg
    · exact ⟨f, List.mem_cons_self, hc q hq⟩
    · exact ⟨g, List.mem_cons_of_mem _ hg, hq⟩

theorem Moves.call {g : Frame n Λ γ L} (hstk : s.stack (s.thread c) = f :: rest) (hf : f.plain = true)
    (hg : g.plain = true) (hgc : g.child = none) (hc : ∀ q, f'.child = some q → f.child = some q) :
    Moves s c (g :: f' :: rest) := by
  refine ⟨?_, ?_, fun e he q hq => ?_⟩
  · rw [hstk, Frame.ranOf_cons hf, Frame.ranOf_cons hg]
  · rw [hstk, Frame.exiting_cons hf, Frame.exiting_cons hg]
  · rw [hstk]
    rcases List.mem_cons.mp he with rfl | he
    · rw [hgc] at hq
      cases hq
    rcases List.mem_cons.mp he with rfl | he
    · exact ⟨f, List.mem_cons_self, hc q hq⟩
    · exact ⟨e, List.mem_cons_of_mem _ he, hq⟩

theorem Moves.ret (hstk : s.stack (s.thread c) = f :: rest) (hf : f.plain = true) (hran : ranOf rest = none)
    (hexit : Threads.exiting rest = false) : Moves s c rest := by
  refine ⟨?_, ?_, fun g hg q hq => ?_⟩
  · rw [hstk, Frame.ranOf_cons hf, hran]
  · rw [hstk, Frame.exiting_cons hf, hexit]
  · rw [hstk]
    exact ⟨g, List.mem_cons_of_mem _ hg, hq⟩

theorem thread_some {p : Fin n} (h : s.cur c = some p) : s.thread c = .proc p := by
  simp only [Sys.thread, h]

theorem thread_none (h : s.cur c = none) : s.thread c = .sched c := by
  simp only [Sys.thread, h]

namespace Inv

variable {p : Fin n}

theorem cur_once (h : Inv A s) (hc : s.cur c = some p) (hc' : s.cur c' = some p) :
    c = c' :=
  h.once c c' p (h.cur c p hc) (h.cur c' p hc')

theorem thread_ne (h : Inv A s) (hc : c' ≠ c) : s.thread c' ≠ s.thread c := by
  intro he
  cases h1 : s.cur c with
  | none =>
    cases h2 : s.cur c' with
    | none | some q => simp_all [Sys.thread]
  | some p =>
    cases h2 : s.cur c' with
    | none => simp_all [Sys.thread]
    | some q =>
      have hpq : q = p := by simpa [Sys.thread, h1, h2] using he
      exact hc (h.cur_once (hpq ▸ h2) h1)

theorem thread_eq_proc (he : s.thread c = .proc p) : s.cur c = some p := by
  cases hc : s.cur c with
  | none => simp [Sys.thread, hc] at he
  | some q => simpa [Sys.thread, hc] using he

theorem running_or_locked (h : Inv A s) (hc : s.cur c = some p) :
    (s.proc p).state = .running ∨
      (s.proc p).state = .zombie ∧ exiting (s.stack (.proc p)) = true ∧ s.lock (.proc p) = some c := by
  have hact := h.active c p hc
  cases hx : exiting (s.stack (.proc p)) with
  | false => exact .inl (by simpa [hx] using hact)
  | true =>
    obtain ⟨l, hl, hfit⟩ := h.cpu c
    rw [thread_some hc, hc] at hfit
    refine .inr ⟨by simpa [hx] using hact, rfl, (hl.mem _).mpr ?_⟩
    unfold exiting at hx
    split at hx
    · next heq =>
      rw [heq] at hfit
      have hlocks : l = ExitAt.locks p .sched := hfit.1
      simp [hlocks, ExitAt.locks]
    · cases hx

theorem ran_locked (h : Inv A s) (hp : s.cproc c = some p) (hc : s.cur c ≠ some p) :
    s.cur c = none ∧ s.stack (.sched c) = [.scheduler (.ran p)] ∧ s.lock (.proc p) = some c := by
  have hnone : s.cur c = none := by
    cases hq : s.cur c with
    | none => rfl
    | some q =>
      have := h.cur c q hq
      rw [hp] at this
      exact absurd (this ▸ hq) hc
  have hstk : s.stack (.sched c) = [.scheduler (.ran p)] := by
    have hr := h.ran c
    rw [hp] at hr
    unfold ranOf at hr
    split at hr
    · next heq => rw [heq, Option.some.inj hr]
    · cases hr
  obtain ⟨l, hl, hfit⟩ := h.cpu c
  rw [thread_none hnone, hnone, hstk] at hfit
  have hlocks : l = SchedAt.locks (.ran p) := hfit.1
  exact ⟨hnone, hstk, (hl.mem _).mpr (by simp [hlocks, SchedAt.locks])⟩

variable [DecidableEq κ]

theorem reshape (h : Inv A s) (hcur : t.cur = s.cur) (hcproc : t.cproc = s.cproc)
    (hstack : t.stack = update s.stack (s.thread c) stk)
    (hother : ∀ c' l', c' ≠ c → Holding s c' l' → Holding t c' l') (hl : Holding t c l)
    (hfit : Fits A (s.cur c) l stk) (hran : ranOf stk = ranOf (s.stack (s.thread c)))
    (hlive : ∀ c p, s.cproc c = some p → (t.proc p).state ≠ .unused ∧ (t.proc p).state ≠ .used)
    (hactive : ∀ c p, s.cur c = some p →
      (t.proc p).state = if exiting (t.stack (.proc p)) then .zombie else .running)
    (hparked : ∀ p, (∀ c, s.cur c ≠ some p) → ParkedAs A p (t.proc p) (s.stack (.proc p)))
    (hchild : ∀ p q f, f ∈ t.stack (.proc p) → f.child = some q → (t.proc q).state = .used)
    (halone : ∀ p p' q f f', f ∈ t.stack (.proc p) → f' ∈ t.stack (.proc p') → f.child = some q →
      f'.child = some q → p = p') : Inv A t := by
  have hthread : t.thread = s.thread := by
    funext c'
    simp only [Sys.thread, hcur]
  obtain ⟨hmine, hsame⟩ := eq_update_iff.mp hstack
  refine ⟨fun c' => ?_, fun c' => ?_, hcur ▸ hcproc ▸ h.cur, hcproc ▸ h.once, hcproc ▸ hlive,
    hcur ▸ hactive, fun p hp => ?_, hchild, halone⟩
  · rw [hthread, hcur]
    by_cases hc : c' = c
    · rw [hc, hmine]
      exact ⟨l, hl, hfit⟩
    · obtain ⟨l', hl', hfit'⟩ := h.cpu c'
      rw [hsame _ (h.thread_ne hc)]
      exact ⟨l', hother c' l' hc hl', hfit'⟩
  · rw [hcproc, h.ran c']
    by_cases hc : Thread.sched c' = s.thread c
    · rw [hc, hmine, hran]
    · rw [hsame _ hc]
  · rw [hcur] at hp
    rw [hsame _ fun hc => hp c (thread_eq_proc hc.symm)]
    exact hparked p hp

theorem move (h : Inv A s) (hcur : t.cur = s.cur) (hcproc : t.cproc = s.cproc)
    (hproc : t.proc = s.proc) (hstack : t.stack = update s.stack (s.thread c) stk)
    (hother : ∀ c' l', c' ≠ c → Holding s c' l' → Holding t c' l') (hl : Holding t c l)
    (hfit : Fits A (s.cur c) l stk) (hm : Moves s c stk) : Inv A t := by
  obtain ⟨hmine, hsame⟩ := eq_update_iff.mp hstack
  have hchild : ∀ p q f, f ∈ t.stack (.proc p) → f.child = some q →
      ∃ f' ∈ s.stack (.proc p), f'.child = some q := by
    intro p q f hf hq
    by_cases hp : Thread.proc p = s.thread c
    · rw [hp, hmine] at hf
      obtain ⟨f', hf', hq'⟩ := hm.child f hf q hq
      exact ⟨f', hp ▸ hf', hq'⟩
    · exact ⟨f, hsame _ hp ▸ hf, hq⟩
  refine h.reshape hcur hcproc hstack hother hl hfit hm.ran (hproc ▸ h.live) (fun c' p hp => ?_)
    (hproc ▸ h.parked) (fun p q f hf hq => ?_) (fun p p' q f f' hf hf' hq hq' => ?_)
  · rw [hproc, h.active c' p hp]
    by_cases hc : Thread.proc p = s.thread c
    · rw [hc, hmine, hm.exiting]
    · rw [hsame _ hc]
  · obtain ⟨f', hf', hq'⟩ := hchild p q f hf hq
    rw [hproc]
    exact h.child p q f' hf' hq'
  · obtain ⟨g, hg, hgq⟩ := hchild p q f hf hq
    obtain ⟨g', hg', hgq'⟩ := hchild p' q f' hf' hq'
    exact h.alone p p' q g g' hg hg' hgq hgq'

omit [DecidableEq κ]

section Changes

variable {q : Fin n} {x : Proc n γ}

theorem goto [DecidableEq κ] (h : Inv A s) (hl : Holding s c l) (hfit : Fits A (s.cur c) l stk)
    (hm : Moves s c stk) : Inv A (s.goto c stk) :=
  h.move rfl rfl rfl rfl (fun _ _ _ h' => ⟨h'.mem, h'.nodup, h'.noff⟩) ⟨hl.mem, hl.nodup, hl.noff⟩
    hfit hm

theorem setProc (h : Inv A s) (hcur : ∀ c, s.cur c = some q → x.state = (s.proc q).state)
    (hlive : ∀ c, s.cproc c = some q → x.state ≠ .unused ∧ x.state ≠ .used)
    (hoff : (∀ c, s.cur c ≠ some q) → ParkedAs A q x (s.stack (.proc q)))
    (hused : (s.proc q).state = .used → x.state = .used) : Inv A (s.setProc q x) := by
  have hself : (s.setProc q x).proc q = x := update_self ..
  have hne : ∀ p, p ≠ q → (s.setProc q x).proc p = s.proc p := fun p hp =>
    update_of_ne hp ..
  refine ⟨fun c => ?_, h.ran, h.cur, h.once, fun c p hp => ?_, fun c p hp => ?_, fun p hp => ?_,
    fun p p' f hf hp' => ?_, h.alone⟩
  · obtain ⟨l, hl, hfit⟩ := h.cpu c
    exact ⟨l, ⟨hl.mem, hl.nodup, hl.noff⟩, hfit⟩
  · obtain rfl | hpq := eq_or_ne p q
    · rw [hself]
      exact hlive c hp
    · rw [hne p hpq]
      exact h.live c p hp
  · obtain rfl | hpq := eq_or_ne p q
    · rw [hself, hcur c hp]
      exact h.active c p hp
    · rw [hne p hpq]
      exact h.active c p hp
  · obtain rfl | hpq := eq_or_ne p q
    · rw [hself]
      exact hoff hp
    · rw [hne p hpq]
      exact h.parked p hp
  · have hu := h.child p p' f hf hp'
    obtain rfl | hpq := eq_or_ne p' q
    · rw [hself]
      exact hused hu
    · rw [hne p' hpq]
      exact hu

theorem setProc_same (h : Inv A s) (hstate : x.state = (s.proc q).state)
    (hchan : x.chan = (s.proc q).chan) : Inv A (s.setProc q x) := by
  refine h.setProc (fun _ _ => hstate) (fun c hc => hstate ▸ h.live c q hc) (fun hoff => ?_)
    (fun hu => hstate.trans hu)
  have hp := h.parked q hoff
  unfold ParkedAs at hp ⊢
  rw [hstate, hchan]
  exact hp

theorem setProc_woken (h : Inv A s) (hs : (s.proc q).state = .sleeping) (hx : x.state = .runnable) :
    Inv A (s.setProc q x) := by
  refine h.setProc (fun c hc => ?_) (fun _ _ => by simp [hx]) (fun hoff => ?_) (fun hu => ?_)
  · rcases h.running_or_locked hc with hr | ⟨hz, -, -⟩
    · simp [hs] at hr
    · simp [hs] at hz
  · have hp := h.parked q hoff
    unfold ParkedAs at hp ⊢
    rw [hs] at hp
    rw [hx]
    obtain ⟨ch, lk, rest, hstk, -, hfit⟩ := hp
    exact ⟨_, rest, hstk, rfl, hfit⟩
  · rw [hs] at hu
    cases hu

end Changes

end Inv

structure After (A : L → List (Lock n Λ) → Prop) (s : Sys n κ Λ γ L D) (c : κ)
    (t : Sys n κ Λ γ L D) : Prop where
  inv : Inv A t
  apart : Apart s t c

namespace After

variable {x : Proc n γ}

theorem setProc {q : Fin n} (h : After A (s.setProc q x) c t) (hcur : t.cur = s.cur) :
    After A s c t :=
  ⟨h.inv, h.apart.cur, h.apart.cproc, h.apart.kept, fun _ hp => .inl (hcur ▸ hp), h.apart.locks,
    h.apart.panic⟩

theorem log {e : Event} (h : After A s c t) : After A s c (t.log e) := by
  obtain ⟨hi, ha⟩ := h
  refine ⟨⟨fun c => ?_, hi.ran, hi.cur, hi.once, hi.live, hi.active, hi.parked, hi.child, hi.alone⟩,
    ha.cur, ha.cproc, ha.kept, ha.picked, ha.locks, ha.panic⟩
  obtain ⟨l, hl, hfit⟩ := hi.cpu c
  exact ⟨l, ⟨hl.mem, hl.nodup, hl.noff⟩, hfit⟩

theorem panic {msg : String} (h : Inv A s) (hmsg : msg ∈ otherPanics) :
    After A s c (s.panic msg) := by
  refine ⟨⟨fun c => ?_, h.ran, h.cur, h.once, h.live, h.active, h.parked, h.child, h.alone⟩,
    fun _ _ => rfl, fun _ _ => rfl, fun _ hp _ => hp, fun _ hp => .inl hp, fun _ _ _ => .rfl,
    fun m hm => ?_⟩
  · obtain ⟨l, hl, hfit⟩ := h.cpu c
    exact ⟨l, ⟨hl.mem, hl.nodup, hl.noff⟩, hfit⟩
  · cases hm
    exact .inr hmsg

variable [DecidableEq κ] {o : Option (Fin n)}

theorem goto (h : Inv A s) (ho : s.cur c = o) (hl : Holding s c l) (hfit : Fits A o l stk)
    (hm : Moves s c stk) : After A s c (s.goto c stk) :=
  ⟨h.goto hl (ho ▸ hfit) hm, .of_eq rfl rfl (fun _ _ _ => .rfl) rfl⟩

variable [DecidableEq Λ] {k : Lock n Λ} {f : Sys n κ Λ γ L D → Sys n κ Λ γ L D}

theorem acquire (h : Inv A s) (ho : s.cur c = o) (hl : Holding s c l)
    (ht : s.acquire c k (fun s => s.goto c stk) = some t) (hfit : Fits A o (k :: l) stk)
    (hm : Moves s c stk) : After A s c t := by
  unfold Sys.acquire at ht
  split_ifs at ht with hmine hfree
  · cases ht
    exact panic h (by simp [otherPanics])
  · cases ht
    exact ⟨h.move rfl rfl rfl rfl (fun _ _ hc hl' =>
      have h' := hl'.take_of_ne hfree hc
      ⟨h'.mem, h'.nodup, h'.noff⟩)
      (have h' := hl.take hfree
      ⟨h'.mem, h'.nodup, h'.noff⟩) (ho ▸ hfit) hm,
      .of_eq rfl rfl (fun _ _ hc => lock_take hfree hc) rfl⟩

theorem drop (h : Inv A s) (ho : s.cur c = o) (hl : Holding s c l) (hk : s.lock k = some c)
    (hfit : Fits A o (l.erase k) stk) (hm : Moves s c stk) :
    After A s c ((s.drop c k).goto c stk) :=
  ⟨h.move rfl rfl rfl rfl (fun _ _ hc hl' =>
    have h' := hl'.drop_of_ne hk hc
    ⟨h'.mem, h'.nodup, h'.noff⟩)
    (have h' := hl.drop hk
    ⟨h'.mem, h'.nodup, h'.noff⟩) (ho ▸ hfit) hm,
    .of_eq rfl rfl (fun _ _ hc => lock_drop hk hc) rfl⟩

theorem release_of (h : Inv A s)
    (hf : s.lock k = some c → After A s c (f (s.drop c k))) : After A s c (s.release c k f) := by
  unfold Sys.release
  split_ifs with hmine
  · exact hf hmine
  · exact panic h (by simp [otherPanics])

theorem release (h : Inv A s) (ho : s.cur c = o) (hl : Holding s c l)
    (hfit : Fits A o (l.erase k) stk) (hm : Moves s c stk) :
    After A s c (s.release c k fun s => s.goto c stk) :=
  release_of h fun hmine => drop h ho hl hmine hfit hm

theorem release_cur (hf : ∀ s, (f s).cur = s.cur) : (s.release c k f).cur = s.cur := by
  unfold Sys.release
  split_ifs
  · exact hf _
  · rfl

theorem setProc_release {q : Fin n} (h : Inv A (s.setProc q x)) (ho : s.cur c = o)
    (hl : Holding s c l) (hfit : Fits A o (l.erase k) stk) (hm : Moves s c stk) :
    After A s c ((s.setProc q x).release c k fun s => s.goto c stk) :=
  setProc (release h ho ⟨hl.mem, hl.nodup, hl.noff⟩ hfit ⟨hm.ran, hm.exiting, hm.child⟩)
    (release_cur fun _ => rfl)

theorem setProc_release_log {q : Fin n} {e : Sys n κ Λ γ L D → Event} (h : Inv A (s.setProc q x))
    (ho : s.cur c = o) (hl : Holding s c l) (hfit : Fits A o (l.erase k) stk) (hm : Moves s c stk) :
    After A s c ((s.setProc q x).release c k fun s => (s.log (e s)).goto c stk) :=
  setProc (release_of h fun hmine =>
    (drop h ho ⟨hl.mem, hl.nodup, hl.noff⟩ hmine hfit ⟨hm.ran, hm.exiting, hm.child⟩).log)
    (release_cur fun _ => rfl)

end After

end Xv6.Threads
