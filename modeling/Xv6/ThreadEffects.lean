import Xv6.Scheduler

namespace Xv6.Threads

open Function

variable {n : Nat} {κ Λ γ L D X : Type}

/-- Process `q` becomes `x`, and the events `es` happen. -/
structure Sets (s t : Sys n κ Λ γ L D) (q : Fin n) (x : Proc n γ) (es : List Event) : Prop where
  proc : t.proc = update s.proc q x
  events : t.events = es ++ s.events
  nextpid : t.nextpid = s.nextpid

theorem Sets.self {s t : Sys n κ Λ γ L D} {q : Fin n} {x : Proc n γ} {es : List Event}
    (h : Sets s t q x es) : t.proc q = x := by
  rw [h.proc, update_self]

theorem Sets.of_ne {s t : Sys n κ Λ γ L D} {q q' : Fin n} {x : Proc n γ} {es : List Event}
    (h : Sets s t q x es) (hne : q' ≠ q) : t.proc q' = s.proc q' := by
  rw [h.proc, update_of_ne hne]

/-- What a step of CPU `c` can do to the process table. -/
inductive Change (s : Sys n κ Λ γ L D) (c : κ) (t : Sys n κ Λ γ L D) : Prop
  | same : t.proc = s.proc → t.events = s.events → t.nextpid = s.nextpid → Change s c t
  | run (q : Fin n) (x : Proc n γ) :
      x = { s.proc q with
        state := x.state
        chan := x.chan } → x.state = .runnable ∨ x.state = .running →
      (s.proc q).state ≠ .unused → (s.proc q).state ≠ .zombie → Sets s t q x [] → Change s c t
  | sleep (p : Fin n) (ch : Chan n γ) (lk : Lock n Λ) (rest : List (Frame n Λ γ L)) :
      s.cur c = some p → s.stack (s.thread c) = .sleep ch lk .sched :: rest →
      Sets s t p { s.proc p with
        chan := some ch
        state := .sleeping } [] → Change s c t
  | kill (q : Fin n) (pid : Int) (rest : List (Frame n Λ γ L)) :
      s.stack (s.thread c) = .kkill pid (.locked q) :: rest → ((s.proc q).pid : Int) = pid →
      Sets s t q (kill (s.proc q)) [.killed pid] → Change s c t
  | setkilled (p : Fin n) : s.cur c = some p →
      Sets s t p { s.proc p with killed := true } [.setkilled (s.proc p).pid] → Change s c t
  | alloc (q : Fin n) (rest : List (Frame n Λ γ L)) :
      s.stack (s.thread c) = .kfork (.scan (.locked q)) :: rest → (s.proc q).state = .unused →
      t.proc = update s.proc q { s.proc q with
        pid := s.nextpid
        state := .used } → t.events = .allocated s.nextpid :: s.events → t.nextpid = s.nextpid + 1 →
      Change s c t
  | abort (q : Fin n) (rest : List (Frame n Λ γ L)) :
      s.stack (s.thread c) = .kfork (.copy q) :: rest → Sets s t q {} [] → Change s c t
  | parent (p q : Fin n) (rest : List (Frame n Λ γ L)) : s.cur c = some p →
      s.stack (s.thread c) = .kfork (.parent q) :: rest →
      Sets s t q { s.proc q with parent := some p } [] → Change s c t
  | reparent (p q : Fin n) (status : Int) (rest : List (Frame n Λ γ L)) : s.cur c = some p →
      s.stack (s.thread c) = .kexit status (.reparent q) :: rest → (s.proc q).parent = some p →
      Sets s t q { s.proc q with parent := some s.initproc } [] →
      t.stack (s.thread c) = .wakeup (some (.proc s.initproc)) (.next 0) ::
        .kexit status (.reparent (q + 1)) :: rest → t.cur = s.cur → Change s c t
  | zombie (p : Fin n) (status : Int) (rest : List (Frame n Λ γ L)) : s.cur c = some p →
      s.stack (s.thread c) = .kexit status .zombie :: rest →
      Sets s t p { s.proc p with
        xstate := status
        state := .zombie } [.exited (s.proc p).pid status] → Change s c t
  | reap (p q : Fin n) (addr : Nat) (rest : List (Frame n Λ γ L)) : s.cur c = some p →
      s.stack (s.thread c) = .kwait addr (.locked q) :: rest → (s.proc q).state = .zombie →
      Sets s t q {} [.waited (s.proc p).pid (s.proc q).pid (s.proc q).xstate] →
      t.stack (s.thread c) = .kwait addr (.done (s.proc q).pid) :: rest → Change s c t

def SleepAt.succ : SleepAt → Option SleepAt
  | .acquire => some .release
  | .release => some .sched
  | .sched => some .tidy
  | .tidy => some .reacquire
  | .reacquire => none

def Frame.goes : Frame n Λ γ L → Frame n Λ γ L → Prop
  | .client _, .client _ => True
  | .client x, .clientKilled y => x = y
  | .clientKilled _, .client _ => True
  | .yield _, .yield _ => True
  | .sleep ch lk a, .sleep ch' lk' a' => ch = ch' ∧ lk = lk' ∧ a.succ = some a'
  | .wakeup ch _, .wakeup ch' _ => ch = ch'
  | .kkill pid _, .kkill pid' _ => pid = pid'
  | .setkilled _, .setkilled _ => True
  | .kfork _, .kfork _ => True
  | .kexit status _, .kexit status' _ => status = status'
  | .kwait addr _, .kwait addr' _ => addr = addr'
  | .scheduler _, .scheduler _ => True
  | _, _ => False

def Frame.calls : Frame n Λ γ L → Frame n Λ γ L → Prop
  | .client _, .sleep _ _ .acquire => True
  | .client _, .wakeup _ (.next 0) => True
  | .kexit _ _, .wakeup _ (.next 0) => True
  | .kwait _ _, .sleep _ _ .acquire => True
  | _, _ => False

def Frame.enters : Frame n Λ γ L → Prop
  | .client _ => True
  | .yield .acquire => True
  | .kfork (.scan (.next 0)) => True
  | .kexit _ .waitLock => True
  | .kwait _ .lock => True
  | .kkill _ (.next 0) => True
  | .setkilled false => True
  | _ => False

/-- How the stack of a thread changes in a step of the function on top. -/
inductive Flow (old : List (Frame n Λ γ L)) : List (Frame n Λ γ L) → Prop
  | halt : Flow old old
  | go (f f' : Frame n Λ γ L) (rest : List (Frame n Λ γ L)) : old = f :: rest → f.goes f' →
      Flow old (f' :: rest)
  | call (f f' g : Frame n Λ γ L) (rest : List (Frame n Λ γ L)) : old = f :: rest → f.goes f' →
      f.calls g → Flow old (g :: f' :: rest)
  | ret (f : Frame n Λ γ L) (rest : List (Frame n Λ γ L)) : old = f :: rest → Flow old rest

/-- What a step of CPU `c` inside a function comes to, besides its own locks. -/
structure Effect (s : Sys n κ Λ γ L D) (c : κ) (t : Sys n κ Λ γ L D) : Prop where
  change : Change s c t
  others : ∀ y, y ≠ s.thread c → t.stack y = s.stack y ∨
    ∃ q, y = .proc q ∧ (s.proc q).state = .unused ∧ t.stack y = [.forkret, .user]
  flow : Flow (s.stack (s.thread c)) (t.stack (s.thread c))
  initproc : t.initproc = s.initproc
  data : t.data = s.data

/-- What any step of CPU `c` comes to. -/
structure Outcome (s : Sys n κ Λ γ L D) (c : κ) (t : Sys n κ Λ γ L D) : Prop where
  change : Change s c t
  others : ∀ y, y ≠ s.thread c → t.stack y = s.stack y ∨
    ∃ q, y = .proc q ∧ (s.proc q).state = .unused ∧ t.stack y = [.forkret, .user]
  flow : Flow (s.stack (s.thread c)) (t.stack (s.thread c)) ∨
    ∃ g, g.enters ∧ t.stack (s.thread c) = g :: s.stack (s.thread c)
  initproc : t.initproc = s.initproc

theorem Effect.outcome {s t : Sys n κ Λ γ L D} {c : κ} (h : Effect s c t) : Outcome s c t :=
  ⟨h.change, h.others, .inl h.flow, h.initproc⟩

variable [DecidableEq κ] [DecidableEq Λ] {A : L → List (Lock n Λ) → Prop}
  {s t : Sys n κ Λ γ L D} {c : κ} {l : List (Lock n Λ)} {f : Frame n Λ γ L}
  {rest stk : List (Frame n Λ γ L)} {p q : Fin n} {x : Proc n γ} {k : Lock n Λ}

namespace Effect

omit [DecidableEq Λ] in
theorem of_update (hchange : Change s c t) (hstack : t.stack = update s.stack (s.thread c) stk)
    (hflow : Flow (s.stack (s.thread c)) stk) (hinit : t.initproc = s.initproc)
    (hdata : t.data = s.data) : Effect s c t :=
  ⟨hchange, fun y hy => .inl (by rw [hstack, update_of_ne hy]),
    by rw [hstack, update_self]; exact hflow, hinit, hdata⟩

omit [DecidableEq Λ] [DecidableEq κ] in
theorem of_same (hchange : Change s c t) (hstack : t.stack = s.stack)
    (hinit : t.initproc = s.initproc) (hdata : t.data = s.data) : Effect s c t :=
  ⟨hchange, fun y _ => .inl (by rw [hstack]), hstack ▸ .halt, hinit, hdata⟩

omit [DecidableEq Λ] in
theorem goto (hflow : Flow (s.stack (s.thread c)) stk) : Effect s c (s.goto c stk) :=
  of_update (.same rfl rfl rfl) rfl hflow rfl rfl

theorem acquire (ht : s.acquire c k (fun s => s.goto c stk) = some t)
    (hflow : Flow (s.stack (s.thread c)) stk) : Effect s c t := by
  unfold Sys.acquire at ht
  split_ifs at ht
  · cases ht
    exact of_same (.same rfl rfl rfl) rfl rfl rfl
  · cases ht
    exact of_update (.same rfl rfl rfl) rfl hflow rfl rfl

theorem release (hflow : Flow (s.stack (s.thread c)) stk) :
    Effect s c (s.release c k fun s => s.goto c stk) := by
  unfold Sys.release
  split_ifs
  · exact of_update (.same rfl rfl rfl) rfl hflow rfl rfl
  · exact of_same (.same rfl rfl rfl) rfl rfl rfl

theorem setProc_release (hlock : s.lock k = some c)
    (hflow : Flow (s.stack (s.thread c)) stk) (hchange : ∀ t, Sets s t q x [] → Change s c t) :
    Effect s c ((s.setProc q x).release c k fun s => s.goto c stk) := by
  have hrel : (s.setProc q x).release c k (fun s => s.goto c stk) =
      ((s.setProc q x).drop c k).goto c stk := if_pos hlock
  rw [hrel]
  exact of_update (hchange _ ⟨rfl, rfl, rfl⟩) rfl hflow rfl rfl

theorem setProc_release_log {e : Sys n κ Λ γ L D → Event} (hlock : s.lock k = some c)
    (hflow : Flow (s.stack (s.thread c)) stk)
    (hchange : ∀ t, Sets s t q x [e ((s.setProc q x).drop c k)] → t.stack (s.thread c) = stk →
      Change s c t) :
    Effect s c ((s.setProc q x).release c k fun s => (s.log (e s)).goto c stk) := by
  have hrel : (s.setProc q x).release c k (fun s => (s.log (e s)).goto c stk) =
      (((s.setProc q x).drop c k).log (e ((s.setProc q x).drop c k))).goto c stk := if_pos hlock
  rw [hrel]
  exact of_update (hchange _ ⟨rfl, rfl, rfl⟩ (update_self ..)) rfl hflow rfl rfl

omit [DecidableEq Λ] in
theorem sched (hflow : Flow (s.stack (s.thread c)) stk) (hchange : ∀ t, Sets s t p x [] → Change s c t) :
    Effect s c ((s.setProc p x).sched c p stk) := by
  unfold Sys.sched
  split_ifs
  · exact of_same (hchange _ ⟨rfl, rfl, rfl⟩) rfl rfl rfl
  · exact of_same (hchange _ ⟨rfl, rfl, rfl⟩) rfl rfl rfl
  · exact of_same (hchange _ ⟨rfl, rfl, rfl⟩) rfl rfl rfl
  · exact of_update (hchange _ ⟨rfl, rfl, rfl⟩) rfl hflow rfl rfl

end Effect

section Steps

variable (h : Inv A s) {code : L → Instr Λ γ L D X}
include h

omit [DecidableEq κ] [DecidableEq Λ] in
theorem Inv.state_running (hcur : s.cur c = some p) (hstk : s.stack (s.thread c) = f :: rest)
    (hf : f.plain = true) : (s.proc p).state = .running := by
  have hact := h.active c p hcur
  rw [← thread_some hcur, hstk, Frame.exiting_cons hf] at hact
  exact hact

theorem Effect.yieldStep {a : YieldAt} (hcur : s.cur c = some p)
    (hstk : s.stack (s.thread c) = .yield a :: rest) (ht : yieldStep s c p rest a = some t) :
    Effect s c t := by
  have hr := h.state_running hcur hstk rfl
  cases a with
  | acquire => exact .acquire ht (.go _ _ _ hstk trivial)
  | sched =>
    cases ht
    exact .sched (.go _ _ _ hstk trivial) fun t ht => .run p _ rfl (.inl rfl) (by simp [hr]) (by simp [hr]) ht
  | release =>
    cases ht
    exact .release (.ret _ _ hstk)

theorem Effect.sleepStep {ch : Chan n γ} {lk : Lock n Λ} {a : SleepAt} (hcur : s.cur c = some p)
    (hstk : s.stack (s.thread c) = .sleep ch lk a :: rest)
    (ht : sleepStep s c p rest ch lk a = some t) : Effect s c t := by
  have hr := h.state_running hcur hstk rfl
  cases a with
  | acquire => exact .acquire ht (.go _ _ _ hstk ⟨rfl, rfl, rfl⟩)
  | release =>
    cases ht
    exact .release (.go _ _ _ hstk ⟨rfl, rfl, rfl⟩)
  | sched =>
    cases ht
    exact .sched (.go _ _ _ hstk ⟨rfl, rfl, rfl⟩) fun t ht => .sleep p ch lk rest hcur hstk ht
  | tidy =>
    cases ht
    obtain ⟨l, hl, hlocks, -⟩ := h.fits hcur hstk
    cases hlocks
    exact .setProc_release ((hl.mem _).mpr List.mem_cons_self) (.go _ _ _ hstk ⟨rfl, rfl, rfl⟩) fun t ht =>
      .run p { s.proc p with chan := none } rfl (.inr hr) (by simp [hr]) (by simp [hr]) ht
  | reacquire => exact .acquire ht (.ret _ _ hstk)

theorem Effect.wakeupStep [DecidableEq γ] {ch : Option (Chan n γ)} {a : ScanAt n}
    (hstk : s.stack (s.thread c) = .wakeup ch a :: rest) (ht : wakeupStep s c rest ch a = some t) :
    Effect s c t := by
  cases a with
  | next i =>
    rw [Threads.wakeupStep] at ht
    split_ifs at ht
    · cases ht
      exact .goto (.go _ _ _ hstk rfl)
    · exact .acquire ht (.go _ _ _ hstk rfl)
    · cases ht
      exact .goto (.ret _ _ hstk)
  | locked q =>
    cases ht
    obtain ⟨l, hl, hfit⟩ := h.cpu c
    rw [hstk] at hfit
    have hlock : s.lock (.proc q) = some c := (hl.mem _).mpr (List.mem_of_mem_head? hfit.1)
    refine .setProc_release hlock (.go _ _ _ hstk rfl) fun t ht => ?_
    unfold wake at ht
    split_ifs at ht with hs
    · exact .run q _ rfl (.inl rfl) (by simp [hs.1]) (by simp [hs.1]) ht
    · exact .same (ht.proc.trans (update_eq_self ..)) ht.events ht.nextpid

theorem Effect.kkillStep {pid : Int} {a : ScanAt n} (hcur : s.cur c = some p)
    (hstk : s.stack (s.thread c) = .kkill pid a :: rest) (ht : kkillStep s c rest pid a = some t) :
    Effect s c t := by
  cases a with
  | next i =>
    rw [Threads.kkillStep] at ht
    split_ifs at ht
    · exact .acquire ht (.go _ _ _ hstk rfl)
    · cases ht
      exact .goto (.ret _ _ hstk)
  | locked q =>
    rw [Threads.kkillStep] at ht
    split_ifs at ht with hpid
    · cases ht
      obtain ⟨l, hl, hlocks, -⟩ := h.fits hcur hstk
      cases hlocks
      exact .setProc_release_log ((hl.mem _).mpr List.mem_cons_self)
        (.ret _ _ hstk) fun t ht _ =>
        .kill q pid rest hstk hpid ht
    · cases ht
      exact .release (.go _ _ _ hstk rfl)

theorem Effect.setkilledStep {b : Bool} (hcur : s.cur c = some p)
    (hstk : s.stack (s.thread c) = .setkilled b :: rest) (ht : setkilledStep s c p rest b = some t) :
    Effect s c t := by
  cases b with
  | false => exact .acquire ht (.go _ _ _ hstk trivial)
  | true =>
    cases ht
    obtain ⟨l, hl, hlocks, -⟩ := h.fits hcur hstk
    cases hlocks
    refine .setProc_release_log ((hl.mem _).mpr List.mem_cons_self) (.ret _ _ hstk) fun t ht _ => ?_
    refine .setkilled p hcur ⟨ht.proc, ht.events.trans ?_, ht.nextpid⟩
    simp [Sys.setProc, Sys.drop]

theorem Effect.kforkStep {ok : Bool} {a : ForkAt n} (hcur : s.cur c = some p)
    (hstk : s.stack (s.thread c) = .kfork a :: rest) (ht : kforkStep s c p rest ok a = some t) :
    Effect s c t := by
  obtain ⟨l, hl, hlocks, -⟩ := h.fits hcur hstk
  cases hlocks
  have hmem : ∀ {f}, f ∈ s.stack (s.thread c) → f ∈ s.stack (.proc p) := fun hf =>
    thread_some hcur ▸ hf
  cases a with
  | scan a =>
    cases a with
    | next i =>
      rw [Threads.kforkStep] at ht
      split_ifs at ht
      · exact .acquire ht (.go _ _ _ hstk trivial)
      · cases ht
        exact .goto (.ret _ _ hstk)
    | locked q =>
      rw [Threads.kforkStep] at ht
      split_ifs at ht with hq
      · cases ht
        refine ⟨.alloc q rest hstk hq rfl rfl rfl, fun y hy => ?_, ?_, rfl, rfl⟩
        rotate_left
        · rw [show ((Threads.alloc s q).goto c (.kfork (.copy q) :: rest)).stack (s.thread c) =
            .kfork (.copy q) :: rest from update_self ..]
          exact .go _ _ _ hstk trivial
        have hgoto : ((Threads.alloc s q).goto c (.kfork (.copy q) :: rest)).stack y =
            (Threads.alloc s q).stack y := update_of_ne hy ..
        rw [hgoto]
        by_cases hyq : y = .proc q
        · exact .inr ⟨q, hyq, hq, by rw [hyq]; exact update_self ..⟩
        · exact .inl (update_of_ne hyq ..)
      · cases ht
        exact .release (.go _ _ _ hstk trivial)
  | copy q =>
    rw [Threads.kforkStep] at ht
    split_ifs at ht
    · cases ht
      exact .release (.go _ _ _ hstk trivial)
    · cases ht
      exact .setProc_release ((hl.mem _).mpr List.mem_cons_self) (.ret _ _ hstk) fun t ht => .abort q rest hstk ht
  | waitLock q | lock q => exact .acquire ht (.go _ _ _ hstk trivial)
  | parent q =>
    cases ht
    exact .setProc_release ((hl.mem _).mpr List.mem_cons_self) (.go _ _ _ hstk trivial) fun t ht =>
      .parent p q rest hcur hstk ht
  | run q =>
    cases ht
    have hu : (s.proc q).state = .used := h.child p q _ (hmem (hstk ▸ List.mem_cons_self)) rfl
    exact .setProc_release ((hl.mem _).mpr List.mem_cons_self) (.ret _ _ hstk) fun t ht =>
      .run q _ rfl (.inl rfl) (by simp [hu]) (by simp [hu]) ht

theorem Effect.kexitStep {status : Int} {a : ExitAt} (hcur : s.cur c = some p)
    (hstk : s.stack (s.thread c) = .kexit status a :: rest)
    (ht : kexitStep s c p rest status a = some t) : Effect s c t := by
  obtain ⟨l, hl, hlocks, -⟩ := h.fits hcur hstk
  cases a with
  | waitLock | lock => exact .acquire ht (.go _ _ _ hstk rfl)
  | reparent i =>
    rw [Threads.kexitStep] at ht
    split_ifs at ht with hi hp
    · cases ht
      exact .of_update (.reparent p ⟨i, hi⟩ status rest hcur hstk hp ⟨rfl, rfl, rfl⟩
        (update_self ..) rfl) rfl (.call _ _ _ _ hstk rfl trivial) rfl rfl
    · cases ht
      exact .goto (.go _ _ _ hstk rfl)
    · cases ht
      exact .goto (.go _ _ _ hstk rfl)
  | wake =>
    cases ht
    exact .goto (.call _ _ _ _ hstk rfl trivial)
  | zombie =>
    cases hlocks
    cases ht
    refine .setProc_release_log ((hl.mem _).mpr (by simp [ExitAt.locks]))
      (.go _ _ _ hstk rfl) fun t ht _ => ?_
    refine .zombie p status rest hcur hstk ⟨ht.proc, ht.events.trans ?_, ht.nextpid⟩
    simp [Sys.setProc, Sys.drop]
  | sched =>
    cases ht
    have hself : s.setProc p (s.proc p) = s := by rw [Sys.setProc, update_eq_self]
    have hsched : Effect s c ((s.setProc p (s.proc p)).sched c p (.kexit status .gone :: rest)) :=
      .sched (.go _ _ _ hstk rfl) fun t ht =>
        .same (ht.proc.trans (update_eq_self ..)) ht.events ht.nextpid
    rwa [hself] at hsched
  | gone => exact hlocks.elim

theorem Effect.kwaitStep {ok : Bool} {addr : Nat} {a : WaitAt n} (hcur : s.cur c = some p)
    (hstk : s.stack (s.thread c) = .kwait addr a :: rest)
    (ht : kwaitStep s c p rest ok addr a = some t) : Effect s c t := by
  obtain ⟨l, hl, hlocks, -⟩ := h.fits hcur hstk
  cases hlocks
  cases a with
  | lock => exact .acquire ht (.go _ _ _ hstk rfl)
  | scan i havekids =>
    rw [Threads.kwaitStep] at ht
    split_ifs at ht
    · exact .acquire ht (.go _ _ _ hstk rfl)
    · cases ht
      exact .goto (.go _ _ _ hstk rfl)
    · exact .acquire ht (.go _ _ _ hstk rfl)
    · cases ht
      exact .goto (.go _ _ _ hstk rfl)
  | locked q =>
    rw [Threads.kwaitStep] at ht
    split_ifs at ht with hz
    · cases ht
      exact .release (.go _ _ _ hstk rfl)
    · cases ht
      exact .setProc_release_log ((hl.mem _).mpr List.mem_cons_self)
        (.go _ _ _ hstk rfl) fun t ht hnew =>
          .reap p q addr rest hcur hstk hz ht hnew
    · cases ht
      exact .release (.go _ _ _ hstk rfl)
  | killed =>
    cases ht
    unfold Sys.release
    split_ifs
    · refine .of_update (.same rfl rfl rfl) rfl ?_ rfl rfl
      split_ifs
      · exact .go _ _ _ hstk rfl
      · exact .call _ _ _ _ hstk rfl trivial
    · exact .of_same (.same rfl rfl rfl) rfl rfl rfl
  | done r =>
    cases ht
    exact .release (.ret _ _ hstk)

theorem Effect.schedulerStep {a : SchedAt n} (hstk : s.stack (s.thread c) = .scheduler a :: rest)
    (ht : schedulerStep s c rest a = some t) : Effect s c t := by
  obtain ⟨l, -, hfit⟩ := h.cpu c
  rw [hstk] at hfit
  cases hfit.2
  cases a with
  | scan a =>
    cases a with
    | next i =>
      rw [Threads.schedulerStep] at ht
      split_ifs at ht
      · exact .acquire ht (.go _ _ _ hstk trivial)
      · cases ht
        exact .goto (.go _ _ _ hstk trivial)
    | locked q =>
      rw [Threads.schedulerStep] at ht
      split_ifs at ht with hr
      · cases ht
        exact .of_update (.run q _ rfl (.inr rfl) (by simp [hr]) (by simp [hr]) ⟨rfl, rfl, rfl⟩) rfl
          (.go _ _ _ hstk trivial) rfl rfl
      · cases ht
        exact .release (.go _ _ _ hstk trivial)
  | ran q =>
    cases ht
    unfold Sys.release
    split_ifs
    · exact .of_update (.same rfl rfl rfl) rfl (.go _ _ _ hstk trivial) rfl rfl
    · exact .of_same (.same rfl rfl rfl) rfl rfl rfl

omit h in
theorem Effect.clientStep {x : L}
    (hstk : s.stack (s.thread c) = .client x :: rest) (ht : clientStep s c rest code x = some t) : Effect s c t := by
  unfold Threads.clientStep at ht
  split at ht
  · exact .acquire ht (.go _ _ _ hstk trivial)
  · cases ht
    exact .release (.go _ _ _ hstk trivial)
  · cases ht
    exact .goto (.call _ _ _ _ hstk trivial trivial)
  · cases ht
    exact .goto (.call _ _ _ _ hstk trivial trivial)
  · split at ht
    · exact .acquire ht (.go _ _ _ hstk rfl)
    · cases ht
  · cases ht
  · cases ht
    exact .goto (.ret _ _ hstk)

omit h in
theorem Effect.clientKilledStep {x : L}
    (hstk : s.stack (s.thread c) = .clientKilled x :: rest) (ht : clientKilledStep s c p rest code x = some t) :
    Effect s c t := by
  unfold Threads.clientKilledStep at ht
  split at ht
  · cases ht
    unfold Sys.release
    split_ifs
    · exact .of_update (.same rfl rfl rfl) rfl (.go _ _ _ hstk trivial) rfl rfl
    · exact .of_same (.same rfl rfl rfl) rfl rfl rfl
  · cases ht

theorem Effect.goStep [DecidableEq γ] {ok : Bool}
    (hstk : s.stack (s.thread c) = f :: rest) (ht : goStep s c rest code ok f = some t) :
    Effect s c t := by
  obtain ⟨l, hl, hfit⟩ := h.cpu c
  rw [hstk] at hfit
  cases hcur : s.cur c with
  | none =>
    rw [hcur] at hfit
    cases f with
    | client x => exact .clientStep hstk ht
    | wakeup ch a => exact .wakeupStep h hstk ht
    | scheduler a => exact .schedulerStep h hstk ht
    | kexit status a => cases a <;> exact hfit.1.elim
    | _ => exact hfit.1.elim
  | some p =>
    have hp := h.cur c p hcur
    cases f with
    | client x => exact .clientStep hstk ht
    | wakeup ch a => exact .wakeupStep h hstk ht
    | scheduler a => exact .schedulerStep h hstk ht
    | kkill pid a => exact .kkillStep h hcur hstk ht
    | user =>
      simp only [Threads.goStep, hp, procStep] at ht
      cases ht
    | clientKilled x =>
      simp only [Threads.goStep, hp, procStep] at ht
      exact .clientKilledStep hstk ht
    | yield a =>
      simp only [Threads.goStep, hp, procStep] at ht
      exact .yieldStep h hcur hstk ht
    | sleep ch lk a =>
      simp only [Threads.goStep, hp, procStep] at ht
      exact .sleepStep h hcur hstk ht
    | setkilled b =>
      simp only [Threads.goStep, hp, procStep] at ht
      exact .setkilledStep h hcur hstk ht
    | forkret =>
      simp only [Threads.goStep, hp, procStep] at ht
      cases ht
      exact .release (.ret _ _ hstk)
    | kfork a =>
      simp only [Threads.goStep, hp, procStep] at ht
      exact .kforkStep h hcur hstk ht
    | kexit status a =>
      simp only [Threads.goStep, hp, procStep] at ht
      exact .kexitStep h hcur hstk ht
    | kwait addr a =>
      simp only [Threads.goStep, hp, procStep] at ht
      exact .kwaitStep h hcur hstk ht

theorem Inv.outcome [DecidableEq γ] {a : κ × Op L X}
    (ht : Threads.step code s a = some t) : Outcome s a.1 t := by
  rcases step_cases ht with ⟨ok, f, rest, -, hstk, ht⟩ | ⟨v, x, rest, -, hstk, ht⟩ | ht
  · exact (Effect.goStep h hstk ht).outcome
  · obtain ⟨f, -, rfl⟩ := accessStep_cases ht
    have hnew : ({ s with data := (f v s.data).1 }.goto a.1 (.client (f v s.data).2 :: rest)).stack
        (s.thread a.1) = .client (f v s.data).2 :: rest := update_self ..
    refine ⟨.same rfl rfl rfl, fun y hy => .inl (update_of_ne hy ..), .inl ?_, rfl⟩
    rw [hnew]
    exact .go _ _ _ hstk trivial
  · rcases enterStep_cases ht with rfl | ⟨f, hf, -, rfl⟩
    · exact ⟨.same rfl rfl rfl, fun y _ => .inl rfl, .inl .halt, rfl⟩
    · refine ⟨.same rfl rfl rfl, fun y hy => .inl (update_of_ne hy ..),
        .inr ⟨f, ?_, update_self ..⟩, rfl⟩
      obtain ⟨c, op⟩ := a
      cases op <;> cases hf <;> trivial

end Steps

section Flows

omit [DecidableEq κ] [DecidableEq Λ]

variable {ch : Chan n γ} {lk : Lock n Λ} {r new old : List (Frame n Λ γ L)}

theorem Fits.sleep_under {o : Option (Fin n)} (hfit : Fits A o l (f :: .sleep ch lk .sched :: r)) :
    False := by
  have hnil : ¬ Fits A o [] (.sleep ch lk .sched :: r) := by
    cases o <;> exact fun h => by cases h.1
  cases f with
  | client x | clientKilled x | yield a => exact hnil hfit.2.2.2.2
  | sleep ch' lk' a | wakeup ch' a => exact hfit.2.2.2.1
  | _ => cases hfit.2

theorem Outcome.sleep (h : Inv A s) (ho : Outcome s c t)
    (hr : t.stack (s.thread c) = .sleep ch lk .sched :: r) :
    s.stack (s.thread c) = t.stack (s.thread c) ∨ s.stack (s.thread c) = .sleep ch lk .release :: r := by
  rcases ho.flow with hflow | ⟨g, hg, hnew⟩
  · generalize hnew : t.stack (s.thread c) = new at hflow hr
    cases hflow with
    | halt => exact .inl rfl
    | go f f' rest hold hgoes =>
      cases hr
      cases f with
      | sleep ch' lk' a =>
        obtain ⟨rfl, rfl, ha⟩ := hgoes
        cases a <;> cases ha
        exact .inr hold
      | _ => exact hgoes.elim
    | call f f' g rest hold _ hcalls =>
      cases hr
      cases f <;> exact hcalls.elim
    | ret f rest hold =>
      obtain ⟨l, -, hfit⟩ := h.cpu c
      rw [hold, hr] at hfit
      exact hfit.sleep_under.elim
  · rw [hr] at hnew
    cases hnew
    exact hg.elim

theorem Outcome.wakeup (ho : Outcome s c t) {ch : Option (Chan n γ)} {a : ScanAt n}
    (hr : t.stack (s.thread c) = .wakeup ch a :: r) : a = .next 0 ∨
      (∃ a', s.stack (s.thread c) = .wakeup ch a' :: r) ∨
      ∃ f, s.stack (s.thread c) = f :: .wakeup ch a :: r := by
  rcases ho.flow with hflow | ⟨g, hg, hnew⟩
  · generalize hnew : t.stack (s.thread c) = new at hflow hr
    cases hflow with
    | halt => exact .inr (.inl ⟨a, hr⟩)
    | go f f' rest hold hgoes =>
      cases hr
      cases f with
      | wakeup ch' a' =>
        cases hgoes
        exact .inr (.inl ⟨a', hold⟩)
      | _ => exact hgoes.elim
    | call f f' g rest hold _ hcalls =>
      cases hr
      refine .inl ?_
      rcases a with (_ | i) | q
      · rfl
      · cases f <;> exact hcalls.elim
      · cases f <;> exact hcalls.elim
    | ret f rest hold => exact .inr (.inr ⟨f, hr ▸ hold⟩)
  · rw [hr] at hnew
    cases hnew
    exact hg.elim

theorem Flow.mem {g : Frame n Λ γ L} (h : Flow old new)
    (hg : g ∈ new) : g ∈ old ∨ ∃ f ∈ old, f.goes g ∨ f.calls g := by
  cases h with
  | halt => exact .inl hg
  | go f f' rest hold hf =>
    subst hold
    rcases List.mem_cons.mp hg with rfl | hg
    · exact .inr ⟨f, List.mem_cons_self, .inl hf⟩
    · exact .inl (List.mem_cons_of_mem _ hg)
  | call f f' g' rest hold hf hc =>
    subst hold
    rcases List.mem_cons.mp hg with rfl | hg
    · exact .inr ⟨f, List.mem_cons_self, .inr hc⟩
    · rcases List.mem_cons.mp hg with rfl | hg
      · exact .inr ⟨f, List.mem_cons_self, .inl hf⟩
      · exact .inl (List.mem_cons_of_mem _ hg)
  | ret f rest hold => exact .inl (hold ▸ List.mem_cons_of_mem _ hg)

theorem Flow.kkill {pid : Int} {a : ScanAt n} (h : Flow old new)
    (ha : .kkill pid a ∈ new) : ∃ a', .kkill pid a' ∈ old := by
  rcases h.mem ha with hm | ⟨f, hm, hf | hf⟩
  · exact ⟨a, hm⟩
  · cases f with
    | kkill pid' a' =>
      cases hf
      exact ⟨a', hm⟩
    | _ => exact hf.elim
  · cases f <;> exact hf.elim

theorem Flow.kexit {status : Int} {a : ExitAt} (h : Flow old new)
    (ha : .kexit status a ∈ new) : ∃ a', .kexit status a' ∈ old := by
  rcases h.mem ha with hm | ⟨f, hm, hf | hf⟩
  · exact ⟨a, hm⟩
  · cases f with
    | kexit status' a' =>
      cases hf
      exact ⟨a', hm⟩
    | _ => exact hf.elim
  · cases f <;> exact hf.elim

end Flows

end Xv6.Threads
