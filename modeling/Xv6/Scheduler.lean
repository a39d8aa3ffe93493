import Xv6.ThreadCalls

namespace Xv6.Threads

open Xv6.Lib Function

variable {n : Nat} {κ Λ γ L D X : Type}
  {A : L → List (Lock n Λ) → Prop} {s t : Sys n κ Λ γ L D} {c : κ} {l : List (Lock n Λ)}
  {f : Frame n Λ γ L} {rest stk : List (Frame n Λ γ L)} {p q : Fin n} {op : Op L X}

/-- Other kernel code calls `sleep` in a process that holds the condition lock only, and returns with
no lock held. -/
def SleepsAlone (code : L → Instr Λ γ L D X) (s : Sys n κ Λ γ L D) : κ × Op L X → Prop
  | (c, .go _) =>
    match s.stack (s.thread c) with
    | .client x :: _ =>
      match code x with
      | .sleep _ lk _ => s.cur c ≠ none ∧ s.lock (.client lk) = some c ∧ s.noff c = 1
      | .ret => s.noff c = 0
      | _ => True
    | _ => True
  | _ => True

theorem Holding.eq_singleton {k : Lock n Λ} (hl : Holding s c l) (hk : s.lock k = some c)
    (hn : s.noff c = 1) : l = [k] := by
  obtain ⟨k', rfl⟩ := List.length_eq_one_iff.mp (hl.noff ▸ hn)
  rw [List.mem_singleton.mp ((hl.mem k).mp hk)]

theorem Holding.eq_nil (hl : Holding s c l) (hn : s.noff c = 0) : l = [] :=
  List.length_eq_zero_iff.mp (hl.noff ▸ hn)

theorem Fits.plain {o : Option (Fin n)} (hfit : Fits A o [] stk) :
    ranOf stk = none ∧ exiting stk = false := by
  cases stk with
  | nil => exact ⟨rfl, rfl⟩
  | cons f rest =>
    have hf : f.plain = true := by
      unfold Frame.plain
      split
      · cases o <;> cases hfit.1
      · cases o <;> cases hfit.1
      · rfl
    exact ⟨Frame.ranOf_cons hf rest, Frame.exiting_cons hf rest⟩

theorem eq_user {stk : List (Frame n Λ γ L)} (h : (stk matches [.user]) = true) : stk = [.user] := by
  split at h
  · rfl
  · cases h

theorem Op.begins_cases {stk : List (Frame n Λ γ L)} (h : op.begins s c stk = true) :
    s.noff c = 0 ∨ stk = [.user] := by
  cases op with
  | intr x => exact .inl (by simpa [Op.begins] using h)
  | timer => exact .inl (by simpa [Op.begins] using h : s.noff c = 0 ∧ _).1
  | _ => exact .inr (eq_user h)

theorem Inv.begins_free (h : Inv A s) (hb : op.begins s c (s.stack (s.thread c)) = true) : Holding s c [] := by
  obtain ⟨l, hl, hfit⟩ := h.cpu c
  rcases Op.begins_cases hb with hn | hu
  · cases hl.eq_nil hn
    exact hl
  · rw [hu] at hfit
    cases hcur : s.cur c with
    | none =>
      rw [hcur] at hfit
      exact hfit.1.elim
    | some p =>
      rw [hcur] at hfit
      cases hfit.1
      exact hl

theorem Inv.init (p : Fin n) (d : D) : Inv A (init p d : Sys n κ Λ γ L D) := by
  have hstate : ∀ q, q ≠ p → ((Threads.init p d : Sys n κ Λ γ L D).proc q).state = .unused := by
    intro q hq
    simp only [Threads.init, update_of_ne hq]
  have hchild : ∀ q f, f ∈ (Threads.init p d : Sys n κ Λ γ L D).stack (.proc q) → f.child = none := by
    intro q f hf
    by_cases hq : q = p
    · simp only [Threads.init, if_pos hq, List.mem_cons, List.not_mem_nil, or_false] at hf
      rcases hf with rfl | rfl <;> rfl
    · simp [Threads.init, if_neg hq] at hf
  refine ⟨fun c => ⟨[], ⟨fun k => ?_, List.nodup_nil, rfl⟩, rfl, rfl⟩, fun _ => rfl, ?_, ?_, ?_, ?_,
    fun q _ => ?_, fun q q' f hf hq => ?_, fun q q' r f f' hf _ hr _ => ?_⟩
  · simp [Threads.init]
  · simp [Threads.init]
  · simp [Threads.init]
  · simp [Threads.init]
  · simp [Threads.init]
  · by_cases hq : q = p
    · rw [hq]
      have hp : ((Threads.init p d : Sys n κ Λ γ L D).proc p).state = .runnable := by
        simp only [Threads.init, update_self]
      have hstk : (Threads.init p d : Sys n κ Λ γ L D).stack (.proc p) = [.forkret, .user] := by
        simp only [Threads.init, if_pos]
      rw [ParkedAs, hp, hstk]
      exact ⟨_, _, rfl, rfl, rfl, rfl⟩
    · rw [ParkedAs, hstate q hq]
      trivial
  · rw [hchild q f hf] at hq
    cases hq
  · rw [hchild q f hf] at hr
    cases hr

theorem Inv.running_iff (h : Inv A s) (hfree : s.lock (.proc p) = none) :
    (s.proc p).state = .running ↔ ∃ c, s.cproc c = some p := by
  constructor
  · intro hr
    by_contra hnone
    have hp := h.parked p fun c hc => hnone ⟨c, h.cur c p hc⟩
    rw [ParkedAs, hr] at hp
    exact hp
  · rintro ⟨c, hc⟩
    by_cases hcur : s.cur c = some p
    · rcases h.running_or_locked hcur with hr | ⟨-, -, hl⟩
      · exact hr
      · rw [hfree] at hl
        cases hl
    · obtain ⟨-, -, hl⟩ := h.ran_locked hc hcur
      rw [hfree] at hl
      cases hl

variable [DecidableEq κ]

theorem Inv.enter_locked (h : Inv A s) {k : Lock n Λ} (hk : s.lock k = some c)
    (ht : enterStep s c op = some t) : t = s.panic "init exiting" := by
  rcases enterStep_cases ht with ht | ⟨f, -, hb, -⟩
  · exact ht
  · exact absurd (((h.begins_free hb).mem k).mp hk) List.not_mem_nil

theorem After.enter (h : Inv A s) (hentry : op.entry = some f)
    (hbegins : op.begins s c (s.stack (s.thread c)) = true)
    (hA : ∀ x, op = .syscall x ∨ op = .intr x → A x []) :
    After A s c (s.goto c (f :: s.stack (s.thread c))) := by
  obtain ⟨l, hl, hfit⟩ := h.cpu c
  have hm : f.plain = true → f.child = none → l = [] → Moves s c (f :: s.stack (s.thread c)) := by
    intro hf hc hnil
    obtain ⟨hran, hexit⟩ := Fits.plain (hnil ▸ hfit)
    refine ⟨by rw [Frame.ranOf_cons hf, hran], by rw [Frame.exiting_cons hf, hexit],
      fun g hg q hq => ?_⟩
    rcases List.mem_cons.mp hg with rfl | hg
    · rw [hc] at hq
      cases hq
    · exact ⟨g, hg, hq⟩
  have huser : s.stack (s.thread c) = [.user] → l = [] ∧ ∃ p, s.cur c = some p := by
    intro hu
    rw [hu] at hfit
    cases hcur : s.cur c with
    | none =>
      rw [hcur] at hfit
      exact hfit.1.elim
    | some p =>
      rw [hcur] at hfit
      exact ⟨hfit.1, p, rfl⟩
  cases op with
  | go ok | access v => cases hentry
  | intr x =>
    cases hentry
    cases hl.eq_nil (by simpa [Op.begins] using hbegins)
    obtain ⟨hran, hexit⟩ := hfit.plain
    exact .goto h rfl hl ⟨hA x (.inr rfl), hran, hexit, trivial, hfit⟩ (hm rfl rfl rfl)
  | timer =>
    cases hentry
    obtain ⟨hn, hp⟩ : s.noff c = 0 ∧ (s.cproc c).isSome = true := by simpa [Op.begins] using hbegins
    cases hl.eq_nil hn
    obtain ⟨p, hp⟩ := Option.isSome_iff_exists.mp hp
    have hcur : s.cur c = some p := by
      by_contra hne
      obtain ⟨-, -, hlock⟩ := h.ran_locked hp hne
      exact absurd ((hl.mem _).mp hlock) List.not_mem_nil
    obtain ⟨hran, hexit⟩ := hfit.plain
    rw [hcur] at hfit
    exact .goto h hcur hl ⟨rfl, hran, hexit, trivial, hfit⟩ (hm rfl rfl rfl)
  | syscall x =>
    cases hentry
    obtain ⟨rfl, p, hcur⟩ := huser (eq_user hbegins)
    obtain ⟨hran, hexit⟩ := hfit.plain
    exact .goto h rfl hl ⟨hA x (.inl rfl), hran, hexit, trivial, hfit⟩ (hm rfl rfl rfl)
  | kfork | kexit status | kwait addr | kkill pid | setkilled =>
    cases hentry
    obtain ⟨rfl, p, hcur⟩ := huser (eq_user hbegins)
    exact .goto h hcur hl ⟨rfl, eq_user hbegins⟩ (hm rfl rfl rfl)

variable [DecidableEq Λ]

section Steps

variable (h : Inv A s)
include h

omit [DecidableEq Λ] in
theorem After.dispatch (hcur : s.cur c = none)
    (hstk : s.stack (s.thread c) = [.scheduler (.scan (.locked q))]) (hl : Holding s c [.proc q])
    (hr : (s.proc q).state = .runnable) : After A s c (dispatch s c q) := by
  rw [thread_none hcur] at hstk
  have hlock : s.lock (.proc q) = some c := (hl.mem _).mpr List.mem_cons_self
  have hnone : s.cproc c = none := by
    rw [h.ran c, hstk]
    rfl
  have hfree := h.runnable_free hr hnone hlock
  have hpark := h.parked q (h.not_current (by simp [hr]) (by simp [hr]))
  rw [ParkedAs, hr] at hpark
  obtain ⟨f, rest, hq, hf, hfit⟩ := hpark
  have hexit : exiting (s.stack (.proc q)) = false := by
    rw [hq]
    cases f <;> first | rfl | cases hf
  have hstack : (Threads.dispatch s c q).stack =
      update s.stack (.sched c) [.scheduler (.ran q)] := by
    rw [← thread_none hcur]
    rfl
  refine ⟨h.switchIn hcur hl hfit hexit hfree (by simp [hr]) rfl rfl rfl rfl hstack rfl rfl,
    fun c' hc' => update_of_ne hc' .., fun c' hc' => update_of_ne hc' ..,
    fun p _ hp => ?_, fun p hp => .inr ?_, fun _ _ _ => .rfl, fun _ hm => .inl hm⟩
  · rw [hcur] at hp
    cases hp
  · cases (update_self ..).symm.trans hp
    exact hr

theorem After.schedulerStep {a : SchedAt n} (hstk : s.stack (s.thread c) = .scheduler a :: rest)
    (ht : schedulerStep s c rest a = some t) : After A s c t := by
  obtain ⟨l, hl, hfit⟩ := h.cpu c
  rw [hstk] at hfit
  cases hcur : s.cur c with
  | some p =>
    rw [hcur] at hfit
    exact hfit.1.elim
  | none =>
    rw [hcur] at hfit
    obtain ⟨hlocks, rfl⟩ := hfit
    cases hlocks
    cases a with
    | scan a =>
      cases a with
      | next i =>
        rw [Threads.schedulerStep] at ht
        split_ifs at ht with hi
        · exact .acquire h hcur hl ht ⟨rfl, rfl⟩ (.top hstk rfl rfl (by simp [Frame.child]))
        · cases ht
          exact .goto h hcur hl ⟨rfl, rfl⟩ (.top hstk rfl rfl (by simp [Frame.child]))
      | locked q =>
        rw [Threads.schedulerStep] at ht
        split_ifs at ht with hr
        · cases ht
          exact .dispatch h hcur hstk hl hr
        · cases ht
          refine .release h hcur hl ?_ (.top hstk rfl rfl (by simp [Frame.child]))
          rw [SchedAt.locks, ScanAt.locks, List.erase_cons_head]
          exact ⟨rfl, rfl⟩
    | ran q =>
      have hlock : s.lock (.proc q) = some c := (hl.mem _).mpr List.mem_cons_self
      rw [Threads.schedulerStep, Sys.release,
        if_pos (show ({ s with cproc := update s.cproc c none } : Sys n κ Λ γ L D).lock
          (.proc q) = some c from hlock)] at ht
      cases ht
      have hl' := hl.drop hlock
      rw [SchedAt.locks, List.erase_cons_head] at hl'
      refine ⟨h.switchBack hcur (q + 1) ⟨hl'.mem, hl'.nodup, hl'.noff⟩ (fun c' l' hc hl' => ?_) rfl rfl
        rfl ?_, fun _ _ => rfl, fun c' hc' => update_of_ne hc' .., fun p _ hp => ?_,
        fun _ hp => .inl hp, fun _ _ hc => lock_drop (s := s) hlock hc, fun _ hm => .inl hm⟩
      · have h' := hl'.drop_of_ne hlock hc
        exact ⟨h'.mem, h'.nodup, h'.noff⟩
      · rw [← thread_none hcur]
        rfl
      · rw [hcur] at hp
        cases hp

end Steps

/-- The locks that `A` allows other kernel code to hold go with what the code does. -/
structure Compat (code : L → Instr Λ γ L D X) (A : L → List (Lock n Λ) → Prop) : Prop where
  acquire : ∀ x lk k l, code x = .acquire lk k → A x l → A k (.client lk :: l)
  release : ∀ x lk k l, code x = .release lk k → A x l → A k (l.erase (.client lk))
  sleep : ∀ x ch lk k, code x = .sleep ch lk k → A x [.client lk] → A k [.client lk]
  wakeup : ∀ x ch k l, code x = .wakeup ch k → A x l → A k l
  killed : ∀ x k b l, code x = .killed k → A x l → A (k b) l
  access : ∀ x f v d l, code x = .access f → A x l → A (f v d).2 l

instance (code : L → Instr Λ γ L D X) (s : Sys n κ Λ γ L D) (a : κ × Op L X) :
    Decidable (SleepsAlone code s a) := by
  unfold SleepsAlone
  split
  · split
    · split <;> infer_instance
    · infer_instance
  · infer_instance

section Client

variable {code : L → Instr Λ γ L D X} (hA : Compat code A) (h : Inv A s)
include hA h

theorem After.clientStep {x : L} {ok : Bool} (hstk : s.stack (s.thread c) = .client x :: rest)
    (hok : SleepsAlone code s (c, .go ok)) (ht : clientStep s c rest code x = some t) :
    After A s c t := by
  obtain ⟨l, hl, hfit⟩ := h.cpu c
  rw [hstk] at hfit
  obtain ⟨hx, hran, hexit, hrest⟩ := hfit
  simp only [SleepsAlone, hstk] at hok
  unfold Threads.clientStep at ht
  cases hcode : code x with
  | acquire lk k =>
    rw [hcode] at ht
    exact .acquire h rfl hl ht ⟨hA.acquire x lk k l hcode hx, hran, hexit, hrest⟩
      (.top hstk rfl rfl (by simp [Frame.child]))
  | release lk k =>
    rw [hcode] at ht
    cases ht
    exact .release h rfl hl ⟨hA.release x lk k l hcode hx, hran, hexit, hrest⟩
      (.top hstk rfl rfl (by simp [Frame.child]))
  | sleep ch lk k =>
    rw [hcode] at ht hok
    obtain ⟨hproc, hlk, hn⟩ := hok
    obtain ⟨p, hcur⟩ := Option.ne_none_iff_exists'.mp hproc
    cases hl.eq_singleton hlk hn
    cases ht
    rw [hcur] at hrest
    exact .goto h hcur hl ⟨rfl, Frame.ranOf_cons rfl _, Frame.exiting_cons rfl _, ⟨ch, lk, rfl, rfl⟩,
      hA.sleep x ch lk k hcode hx, hran, hexit, hrest⟩
      (.call hstk rfl rfl rfl (by simp [Frame.child]))
  | wakeup ch k =>
    rw [hcode] at ht
    cases ht
    exact .goto h rfl hl ⟨trivial, Frame.ranOf_cons rfl _, Frame.exiting_cons rfl _, ⟨ch, rfl⟩,
      hA.wakeup x ch k l hcode hx, hran, hexit, hrest⟩ (.call hstk rfl rfl rfl (by simp [Frame.child]))
  | killed k =>
    rw [hcode] at ht
    cases hp : s.cproc c with
    | none =>
      rw [hp] at ht
      cases ht
    | some p =>
      rw [hp] at ht
      have hcur : s.cur c = some p := by
        by_contra hne
        obtain ⟨hnone, hsched, -⟩ := h.ran_locked hp hne
        rw [thread_none hnone, hsched] at hstk
        cases hstk
      rw [hcur] at hrest
      exact .acquire h hcur hl ht ⟨⟨rfl, hx⟩, hran, hexit, hrest⟩
        (.top hstk rfl rfl (by simp [Frame.child]))
  | access f =>
    rw [hcode] at ht
    cases ht
  | ret =>
    rw [hcode] at ht hok
    cases hl.eq_nil hok
    cases ht
    exact .goto h rfl hl hrest.2 (.ret hstk rfl hran hexit)

theorem After.clientKilledStep {x : L} (hcur : s.cur c = some p)
    (hstk : s.stack (s.thread c) = .clientKilled x :: rest)
    (ht : clientKilledStep s c p rest code x = some t) : After A s c t := by
  obtain ⟨l, hl, ⟨hhead, hx⟩, hran, hexit, hrest⟩ := h.fits hcur hstk
  unfold Threads.clientKilledStep at ht
  cases hcode : code x with
  | killed k =>
    rw [hcode] at ht
    cases ht
    obtain ⟨l', rfl⟩ : ∃ l', l = .proc p :: l' := by
      cases l with
      | nil => cases hhead
      | cons k l' =>
        cases hhead
        exact ⟨l', rfl⟩
    refine .release_of h fun hlock => ?_
    refine .drop h hcur hl hlock ?_ (.top hstk rfl rfl (by simp [Frame.child]))
    rw [List.erase_cons_head]
    exact ⟨hA.killed x k _ _ hcode hx, hran, hexit, hrest⟩
  | _ =>
    rw [hcode] at ht
    cases ht

theorem After.accessStep {v : X} {x : L} (hstk : s.stack (s.thread c) = .client x :: rest)
    (ht : accessStep s c rest code v x = some t) : After A s c t := by
  obtain ⟨l, hl, hfit⟩ := h.cpu c
  rw [hstk] at hfit
  obtain ⟨hx, hran, hexit, hrest⟩ := hfit
  obtain ⟨f, hcode, rfl⟩ := accessStep_cases ht
  have hm : Moves s c (.client (f v s.data).2 :: rest) := .top hstk rfl rfl (by simp [Frame.child])
  exact ⟨h.move rfl rfl rfl rfl (fun _ _ _ hl' => ⟨hl'.mem, hl'.nodup, hl'.noff⟩)
    ⟨hl.mem, hl.nodup, hl.noff⟩ ⟨hA.access x f v s.data l hcode hx, hran, hexit, hrest⟩ hm,
    .of_eq rfl rfl (fun _ _ _ => .rfl) rfl⟩

theorem After.goStep [DecidableEq γ] {ok : Bool} (hstk : s.stack (s.thread c) = f :: rest)
    (hok : SleepsAlone code s (c, .go ok)) (ht : goStep s c rest code ok f = some t) :
    After A s c t := by
  have hproc : (∀ l, ¬ f.Holds A none l) → ∃ p, s.cur c = some p ∧ s.cproc c = some p := by
    intro hnone
    obtain ⟨l, hl, hfit⟩ := h.cpu c
    rw [hstk] at hfit
    cases hcur : s.cur c with
    | none => exact absurd (hcur ▸ hfit.1) (hnone l)
    | some p => exact ⟨p, rfl, h.cur c p hcur⟩
  cases f with
  | client x => exact .clientStep hA h hstk hok ht
  | wakeup ch a => exact .wakeupStep h hstk ht
  | scheduler a => exact .schedulerStep h hstk ht
  | kkill pid a =>
    obtain ⟨p, hcur, -⟩ := hproc fun l hl => hl
    exact .kkillStep h hcur hstk ht
  | user =>
    obtain ⟨p, hcur, hp⟩ := hproc fun l hl => hl
    simp only [Threads.goStep, hp, procStep] at ht
    cases ht
  | clientKilled x =>
    obtain ⟨p, hcur, hp⟩ := hproc fun l hl => hl
    simp only [Threads.goStep, hp, procStep] at ht
    exact .clientKilledStep hA h hcur hstk ht
  | yield a =>
    obtain ⟨p, hcur, hp⟩ := hproc fun l hl => hl
    simp only [Threads.goStep, hp, procStep] at ht
    exact .yieldStep h hcur hstk ht
  | sleep ch lk a =>
    obtain ⟨p, hcur, hp⟩ := hproc fun l hl => hl
    simp only [Threads.goStep, hp, procStep] at ht
    exact .sleepStep h hcur hstk ht
  | setkilled b =>
    obtain ⟨p, hcur, hp⟩ := hproc fun l hl => hl
    simp only [Threads.goStep, hp, procStep] at ht
    exact .setkilledStep h hcur hstk ht
  | forkret =>
    obtain ⟨p, hcur, hp⟩ := hproc fun l hl => hl
    simp only [Threads.goStep, hp, procStep] at ht
    cases ht
    exact .forkret h hcur hstk
  | kfork a =>
    obtain ⟨p, hcur, hp⟩ := hproc fun l hl => hl
    simp only [Threads.goStep, hp, procStep] at ht
    exact .kforkStep h hcur hstk ht
  | kexit status a =>
    obtain ⟨p, hcur, hp⟩ := hproc fun l hl => by cases a <;> exact hl
    simp only [Threads.goStep, hp, procStep] at ht
    exact .kexitStep h hcur hstk ht
  | kwait addr a =>
    obtain ⟨p, hcur, hp⟩ := hproc fun l hl => hl
    simp only [Threads.goStep, hp, procStep] at ht
    exact .kwaitStep h hcur hstk ht

end Client

theorem Inv.step [DecidableEq γ] {code : L → Instr Λ γ L D X} {a : κ × Op L X} (hA : Compat code A)
    (h : Inv A s) (hok : SleepsAlone code s a)
    (hentry : ∀ x, a.2 = .syscall x ∨ a.2 = .intr x → A x []) (ht : step code s a = some t) :
    After A s a.1 t := by
  obtain ⟨c, op⟩ := a
  rcases step_cases ht with ⟨ok, f, rest, rfl, hstk, ht⟩ | ⟨v, x, rest, rfl, hstk, ht⟩ | ht
  · exact .goStep hA h hstk hok ht
  · exact .accessStep hA h hstk ht
  · rcases enterStep_cases ht with rfl | ⟨f, hf, hb, rfl⟩
    · exact .panic h (by simp [otherPanics])
    · exact .enter h hf hb hentry

/-- What the scheduler guarantees in a state. -/
structure Exclusive [DecidableEq γ] (code : L → Instr Λ γ L D X) (s : Sys n κ Λ γ L D) : Prop where
  once : ∀ c c' p, s.cproc c = some p → s.cproc c' = some p → c = c'
  running : ∀ p, s.lock (.proc p) = none →
    ((s.proc p).state = .running ↔ ∃ c, s.cproc c = some p)
  picked : ∀ a t q, SleepsAlone code s a → step code s a = some t → s.cur a.1 ≠ some q →
    t.cur a.1 = some q → ∀ c, s.cur c ≠ some q
  freed : ∀ a t q, SleepsAlone code s a → step code s a = some t → (s.proc q).state ≠ .unused →
    (t.proc q).state = .unused → ∀ c, s.cur c ≠ some q
  panics : s.panicked ≠ some "sched p->lock" ∧ s.panicked ≠ some "sched locks" ∧
    s.panicked ≠ some "sched RUNNING"

theorem Compat.any {code : L → Instr Λ γ L D X} : Compat code (fun _ (_ : List (Lock n Λ)) => True) :=
  ⟨fun _ _ _ _ _ _ => trivial, fun _ _ _ _ _ _ => trivial, fun _ _ _ _ _ _ => trivial,
    fun _ _ _ _ _ _ => trivial, fun _ _ _ _ _ _ => trivial, fun _ _ _ _ _ _ _ => trivial⟩

theorem Inv.exclusive [DecidableEq γ] {code : L → Instr Λ γ L D X} (h : Inv (fun _ _ => True) s)
    (hpanic : ∀ msg, s.panicked = some msg → msg ∈ otherPanics) : Exclusive code s := by
  have hafter : ∀ a t, SleepsAlone code s a → Threads.step code s a = some t →
      After (fun _ _ => True) s a.1 t := fun a t hok ht => h.step .any hok (fun _ _ => trivial) ht
  refine ⟨h.once, fun p hp => h.running_iff hp, fun a t q hok ht hs hq c hc => ?_,
    fun a t q hok ht hs hq c hc => ?_, ?_⟩
  · have ha := hafter a t hok ht
    have hne : c ≠ a.1 := fun he => hs (he ▸ hc)
    exact hne (ha.inv.cur_once ((ha.apart.cur c hne).trans hc) hq)
  · have ha := hafter a t hok ht
    have hcp : t.cproc c = some q := by
      by_cases hca : c = a.1
      · subst hca
        exact ha.apart.kept q (h.cur _ q hc) hc
      · rw [ha.apart.cproc c hca]
        exact h.cur c q hc
    exact (ha.inv.live c q hcp).1 hq
  · have hmsg : ∀ msg, msg ∉ otherPanics → s.panicked ≠ some msg := fun msg hm he => hm (hpanic msg he)
    exact ⟨hmsg _ (by decide), hmsg _ (by decide), hmsg _ (by decide)⟩

/-- Whatever other kernel code does, with any number of processes and CPUs, as long as it calls `sleep`
with only the condition lock held. -/
theorem scheduler_exclusion [DecidableEq γ] {code : L → Instr Λ γ L D X} {p : Fin n} {d : D}
    {as : List (κ × Op L X)} (hrun : Run (step code) (SleepsAlone code) (init p d) as s) :
    Exclusive code s := by
  have hinv : Inv (fun _ _ => True) s ∧ ∀ msg, s.panicked = some msg → msg ∈ otherPanics := by
    refine hrun.invariant (I := fun s => Inv (fun _ _ => True) s ∧ ∀ msg, s.panicked = some msg →
      msg ∈ otherPanics) (fun s a t hs hok ht => ?_) ⟨.init p d, fun msg hm => by cases hm⟩
    have ha := hs.1.step .any hok (fun _ _ => trivial) ht
    exact ⟨ha.inv, fun msg hm => (ha.apart.panic msg hm).elim (hs.2 msg) id⟩
  exact hinv.1.exclusive hinv.2

/-- Kernel code in which one process sleeps, from label 0 on, and another wakes it, from label 4 on. -/
def handshake : Nat → Instr Unit Unit Nat Unit Unit
  | 0 => .acquire () 1
  | 1 => .sleep () () 2
  | 2 => .release () 3
  | 4 => .acquire () 5
  | 5 => .wakeup () 6
  | 6 => .release () 3
  | _ => .ret

/-- `k` steps of CPU `c` in the functions it is in. -/
def go {L X : Type} (c : κ) (k : Nat) : List (κ × Op L X) := List.replicate k (c, .go true)

/-- The first process forks another, which goes to sleep on a second CPU, and wakes it. -/
def handshakeRun : List (Bool × Op Nat Unit) :=
  go false 3 ++ (false, .kfork) :: go false 9 ++ go true 5 ++ (true, .syscall 0) :: go true 6 ++
    (false, .syscall 4) :: go false 8 ++ go true 7

theorem scheduler_exclusion_handshake : ∃ s : Sys 2 Bool Unit Unit Nat Unit,
    Run (step handshake) (SleepsAlone handshake) (init 0 ()) handshakeRun s ∧
      (s.cproc false = some 0 ∧ s.cproc true = some 1 ∧ s.lock (.client ()) = some true) ∧
      Exclusive handshake s := by
  have hrun : ∃ s : Sys 2 Bool Unit Unit Nat Unit,
      Run (step handshake) (SleepsAlone handshake) (init 0 ()) handshakeRun s ∧
        s.cproc false = some 0 ∧ s.cproc true = some 1 ∧ s.lock (.client ()) = some true :=
    Run.exists_of_outcome (by decide +kernel)
  obtain ⟨s, hrun, hs⟩ := hrun
  exact ⟨s, hrun, hs, scheduler_exclusion hrun⟩

end Xv6.Threads
