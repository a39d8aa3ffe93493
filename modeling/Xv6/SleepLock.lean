import Xv6.MonitorSteps

namespace Xv6.SleepLock

open Xv6.Lib Xv6.Threads

variable {n : Nat} {κ : Type}

/-- `struct sleeplock`, without its spinlock and name. -/
structure Sleeplock where
  locked : Bool
  pid : Nat
  deriving DecidableEq

/-- The positions in `acquiresleep(lk); holdingsleep(lk); releasesleep(lk)`. -/
inductive Position where
  | call
  | test
  | sleep
  | take
  | taken
  | held
  | ask
  | answered (r : Bool)
  | drop
  | clear
  | wake
  | leave
  | panic
  | done
  deriving DecidableEq

/-- The value of an access is `myproc()->pid`. Who finds that it does not hold the lock panics, as `brelse` and
`iunlock` do. -/
def code : Position → Instr Unit Unit Position Sleeplock Nat
  | .call => .acquire () .test
  | .test => .access fun _ lk => (lk, if lk.locked then .sleep else .take)
  | .sleep => .sleep () () .test
  | .take => .access fun pid _ => (⟨true, pid⟩, .taken)
  | .taken => .release () .held
  | .held => .acquire () .ask
  | .ask => .access fun pid lk => (lk, .answered (lk.locked ∧ lk.pid = pid))
  | .answered r => .release () (if r then .drop else .panic)
  | .drop => .acquire () .clear
  | .clear => .access fun _ _ => (⟨false, 0⟩, .wake)
  | .wake => .wakeup () .leave
  | .leave => .release () .done
  | .panic | .done => .ret

def Position.holds : Position → Bool
  | .taken | .held | .ask | .answered _ | .drop | .clear => true
  | _ => false

/-- The caller is about to panic. -/
def Position.wrong : Position → Bool
  | .answered false | .panic => true
  | _ => false

def Position.inside : Position → Bool
  | .call | .held | .drop | .panic | .done => false
  | _ => true

def Calls (s : Sys n κ Unit Unit Position Sleeplock) : κ × Op Position Nat → Prop
  | (_, .syscall x) => x = .call
  | (_, .intr _) => False
  | (c, .access pid) => ((s.cur c).all fun p => pid = (s.proc p).pid) = true
  | _ => True

instance (s : Sys n κ Unit Unit Position Sleeplock) (a : κ × Op Position Nat) : Decidable (Calls s a) := by
  unfold Calls
  split <;> infer_instance

def monitor : Monitor Unit Position Sleeplock where
  entry x := x = .call
  sleeps _ := true
  inside := Position.inside
  bad _ := false
  inv _ := True
  pre
    | .sleep, lk => lk.locked = true
    | .take, lk => lk.locked = false
    | _, _ => True
  own x lk := x.holds = true → lk.locked = true
  apart x z := x.holds = false ∨ z.holds = false
  ready _ lk := lk.locked = false
  owes _ x := x = .wake

variable {x z k : Position} {lk : Sleeplock}

/-- A call that gets no lock leaves those of the others alone. -/
theorem monitor_goes (hown : monitor.own x lk) (hk : k.holds = true → x.holds = true) :
    monitor.Goes x k lk lk := by
  refine ⟨fun _ => rfl, fun hh => hown (hk hh), fun z hz hown => ⟨hown, hz.imp_left fun hx => ?_⟩⟩
  exact eq_false_of_ne_true fun hh => absurd (hk hh) (by simp [hx])

theorem take_goes (pid : Nat) (hlk : lk.locked = false) : monitor.Goes .take .taken lk ⟨true, pid⟩ := by
  refine ⟨fun _ => rfl, fun _ => rfl, fun z _ hown => ⟨fun _ => rfl, .inr ?_⟩⟩
  exact eq_false_of_ne_true fun hz => absurd (hown hz) (by simp [hlk])

theorem clear_goes : monitor.Goes .clear .wake lk ⟨false, 0⟩ := by
  refine ⟨fun _ => rfl, nofun, fun z hz hown => ⟨fun hh => ?_, .inl rfl⟩⟩
  rw [hz.resolve_left nofun] at hh
  cases hh

theorem monitor_locked (x : Position) : monitor.Locked code x := by
  cases x with
  | test =>
    intro _ lk
    dsimp only
    split <;> rfl
  | answered r => cases r <;> simp [Monitor.Locked, code, monitor, Position.inside]
  | _ => simp [Monitor.Locked, code, monitor, Position.inside]

theorem monitor_checked (hown : monitor.own x lk) (hpre : monitor.inside x = true → monitor.pre x lk) :
    monitor.Checked code x lk := by
  unfold Monitor.Checked
  cases x with
  | call | held | drop => exact ⟨rfl, monitor_goes hown id, trivial⟩
  | test =>
    intro v
    dsimp only
    split
    · next hc => exact ⟨rfl, monitor_goes hown nofun, trivial, hc, nofun, fun _ hr => .inl hr⟩
    · next hc => exact ⟨rfl, monitor_goes hown nofun, trivial, eq_false_of_ne_true hc, nofun, fun _ hr => .inl hr⟩
  | sleep =>
    have hc : lk.locked = true := hpre rfl
    exact ⟨rfl, monitor_goes hown id, nofun, by simp [monitor, hc], fun _ _ _ => trivial⟩
  | take => exact fun pid => ⟨rfl, take_goes pid (hpre rfl), trivial, trivial, nofun, nofun⟩
  | taken | leave => exact ⟨rfl, monitor_goes hown id, nofun⟩
  | ask => exact fun pid => ⟨rfl, monitor_goes hown fun _ => rfl, trivial, trivial, nofun, fun _ hr => .inl hr⟩
  | answered r => exact ⟨rfl, monitor_goes hown fun _ => rfl, nofun⟩
  | clear => exact fun _ => ⟨rfl, clear_goes, trivial, trivial, nofun, fun _ _ => .inr rfl⟩
  | wake => exact ⟨rfl, monitor_goes hown id, trivial, fun _ _ => .inl rfl⟩
  | panic => trivial
  | done => trivial

theorem monitor_sound : monitor.Sound code := by
  refine ⟨monitor_locked, fun x hx => ?_, fun x z h => h.symm, fun ch x hx => ?_,
    fun x lk _ _ hown hpre => monitor_checked hown hpre⟩
  · obtain rfl : x = .call := by simpa [monitor] using hx
    exact ⟨rfl, rfl, fun _ => nofun, fun _ => .inl rfl⟩
  · rw [show x = .wake from hx]
    rfl

variable [DecidableEq κ] {s t : Sys n κ Unit Unit Position Sleeplock} {a : κ × Op Position Nat} {p : Fin n}

omit [DecidableEq κ] in
theorem Calls.allows (h : Calls s a) : monitor.Allows code s a := by
  obtain ⟨c, op⟩ := a
  unfold Monitor.Allows
  split
  · next heq =>
    cases heq
    exact decide_eq_true h
  · next heq =>
    cases heq
    exact h.elim
  · split
    · split <;> trivial
    · trivial
  · trivial

/-- A step outside the data of the lock keeps it, and nobody is wrong who was not. -/
theorem clientTurn_keeps {rest new : List (Frame n Unit Unit Position)} (h : ClientTurn code x rest new)
    (hx : x.wrong = false) : ∀ z ∈ positions new, z ∈ positions rest ∨ z.wrong = false ∧ z.holds = x.holds := by
  have hcons : ∀ k, k.wrong = false ∧ k.holds = x.holds → ∀ z ∈ k :: positions rest,
      z ∈ positions rest ∨ z.wrong = false ∧ z.holds = x.holds := by
    rintro k hk z hz
    rcases List.mem_cons.mp hz with rfl | hz
    · exact .inr hk
    · exact .inl hz
  cases h with
  | halt => exact hcons x ⟨hx, rfl⟩
  | ret => exact fun z hz => .inl hz
  | killed f hcode => cases x <;> cases hcode
  | acquire lk k hcode => cases x <;> cases hcode <;> exact hcons _ ⟨rfl, rfl⟩
  | sleep ch lk k hcode | wakeup ch k hcode => cases x <;> cases hcode; exact hcons _ ⟨rfl, rfl⟩
  | release lk k hcode =>
    cases x with
    | answered r =>
      cases r with
      | false => cases hx
      | true =>
        cases hcode
        exact hcons .drop ⟨rfl, rfl⟩
    | _ => cases hcode <;> exact hcons _ ⟨rfl, rfl⟩

/-- Nobody else changes a lock that is held. -/
theorem access_keeps {f : Nat → Sleeplock → Sleeplock × Position} (hcode : code x = .access f) (pid : Nat)
    (hpre : monitor.inside x = true → monitor.pre x lk) (hap : monitor.apart x z) (hown : monitor.own z lk)
    (hz : z.holds = true) : (f pid lk).1 = lk := by
  cases x with
  | test | ask =>
    cases hcode
    rfl
  | take =>
    have hfree : lk.locked = false := hpre rfl
    exact absurd (hfree.symm.trans (hown hz)) nofun
  | clear => exact absurd (hz.symm.trans (hap.resolve_left nofun)) nofun
  | _ => cases hcode

/-- Calls are those of live processes, nobody is about to panic, and the lock has the pid of its holder. -/
def Right (s : Sys n κ Unit Unit Position Sleeplock) : Prop :=
  ∀ p x, x ∈ positions (s.stack (.proc p)) →
    (s.proc p).Alive ∧ x.wrong = false ∧ (x.holds = true → s.data.pid = (s.proc p).pid)

variable (hr : Right s) (h : Inv monitor.locks s) (hh : monitor.Holds s)
include hr h hh

omit [DecidableEq κ] in
theorem Right.turn {new : List (Frame n Unit Unit Position)} {ok : Position → Prop} {free : Prop} (hc : Calls s a)
    (hcur : s.cur a.1 = some p) (hturn : Turn code ok free a.2 (s.stack (.proc p)) s.data new lk)
    (hz : z ∈ positions new) :
    ((s.proc p).Alive ∧ ∀ status rest, s.stack (.proc p) ≠ .kexit status .zombie :: rest) ∧ z.wrong = false ∧
      (z.holds = true → lk.pid = (s.proc p).pid) := by
  have hin : ∀ x ∈ positions (s.stack (.proc p)),
      (s.proc p).Alive ∧ ∀ status rest, s.stack (.proc p) ≠ .kexit status .zombie :: rest := by
    refine fun x hx => ⟨(hr p x hx).1, fun status rest hstk => ?_⟩
    obtain ⟨l, -, hfit⟩ := h.cpu a.1
    rw [thread_some hcur, hstk] at hfit
    rw [hstk, show rest = [.user] from hfit.2] at hx
    cases hx
  have hsame : z ∈ positions (s.stack (.proc p)) → lk = s.data → _ ∧ z.wrong = false ∧
      (z.holds = true → lk.pid = (s.proc p).pid) := fun hz hlk => ⟨hin z hz, hlk ▸ (hr p z hz).2⟩
  cases hturn with
  | client x rest new hold hturn =>
    have hx : x ∈ positions (s.stack (.proc p)) := hold ▸ List.mem_cons_self
    obtain hz | ⟨hw, hholds⟩ := clientTurn_keeps hturn (hr p x hx).2.1 z hz
    · exact hsame (hold ▸ List.mem_cons_of_mem x hz) rfl
    · exact ⟨hin x hx, hw, fun hz => (hr p x hx).2.2 (hholds ▸ hz)⟩
  | killed x rest f b _ hcode => cases x <;> cases hcode
  | access x rest f pid hold hcode hop =>
    have hx : x ∈ positions (s.stack (.proc p)) := hold ▸ List.mem_cons_self
    obtain ⟨-, hown, -⟩ := hh.each (.proc p) x hx
    have hpre := hh.pre a.1 x (by rw [thread_some hcur, hold]; rfl)
    obtain rfl | hz := List.mem_cons.mp hz
    · refine ⟨hin x hx, ?_⟩
      have hpid : pid = (s.proc p).pid := by
        obtain ⟨c, op⟩ := a
        cases hop
        simpa [Calls, hcur] using hc
      cases x with
      | test =>
        cases hcode
        dsimp only
        split <;> exact ⟨rfl, nofun⟩
      | take =>
        cases hcode
        exact ⟨rfl, fun _ => hpid⟩
      | ask =>
        cases hcode
        have hmine := (hr p _ hx).2.2 rfl
        have hans : decide (s.data.locked = true ∧ s.data.pid = pid) = true :=
          decide_eq_true ⟨hown rfl, hmine.trans hpid.symm⟩
        dsimp only
        rw [hans]
        exact ⟨rfl, fun _ => hmine⟩
      | clear =>
        cases hcode
        exact ⟨rfl, nofun⟩
      | _ => cases hcode
    · have hmem : z ∈ positions (s.stack (.proc p)) := hold ▸ List.mem_cons_of_mem x hz
      have hnest := hh.nested (.proc p)
      rw [hold] at hnest
      refine ⟨hin x hx, (hr p z hmem).2.1, fun hholds => ?_⟩
      rw [access_keeps hcode pid hpre ((List.pairwise_cons.mp hnest).1 z hz) (hh.each _ z hmem).2.1 hholds]
      exact (hr p z hmem).2.2 hholds
  | enter x _ hop =>
    obtain ⟨c, op⟩ := a
    obtain ⟨hop, huser⟩ | hop := hop
    · cases hop
      obtain rfl : x = .call := hc
      rw [huser] at hz ⊢
      obtain rfl := List.mem_singleton.mp hz
      have hst := h.active c p hcur
      rw [huser] at hst
      exact ⟨⟨by simp [Proc.Alive, hst, exiting], nofun⟩, rfl, nofun⟩
    · cases hop
      exact hc.elim
  | begin g _ _ hg =>
    rw [show positions (g :: s.stack (.proc p)) = positions (s.stack (.proc p)) from
      List.filterMap_cons_none hg] at hz
    exact hsame hz rfl
  | other f rest new hold hf hflow => exact hsame (hflow.positions hold hf ▸ hz) rfl
  | halt => exact hsame hz rfl

theorem Right.step (hc : Calls s a) (ht : step code s a = some t) : Right t := by
  intro p z hz
  have ho := h.outcome ht
  have hturn := hc.allows.turn h ht
  by_cases hp : s.thread a.1 = .proc p
  · have hcur := Inv.thread_eq_proc hp
    rw [hp] at hturn
    obtain ⟨⟨halive, hexit⟩, hw, hpid⟩ := hr.turn h hh hc hcur hturn hz
    obtain ⟨halive', hsame⟩ := ho.change.alive h halive fun _ => hp ▸ hexit
    exact ⟨halive', hw, fun hholds => (hpid hholds).trans hsame.symm⟩
  · obtain hstk | ⟨q, -, -, hstk⟩ := ho.others (.proc p) (Ne.symm hp)
    · rw [hstk] at hz
      obtain ⟨halive, hw, hpid⟩ := hr p z hz
      obtain ⟨halive', hsame⟩ := ho.change.alive h halive fun hcur => absurd (thread_some hcur) hp
      refine ⟨halive', hw, fun hholds => ?_⟩
      rw [hsame, ← hpid hholds]
      generalize t.stack (s.thread a.1) = new at hturn
      generalize t.data = d at hturn ⊢
      cases hturn with
      | access x rest f pid hold hcode =>
        have hx : x ∈ positions (s.stack (s.thread a.1)) := hold ▸ List.mem_cons_self
        rw [access_keeps hcode pid (hh.pre a.1 x (by rw [hold]; rfl)) (hh.apart _ _ x z hp hx hz)
          (hh.each _ z hz).2.1 hholds]
      | _ => rfl
    · rw [hstk] at hz
      cases hz

omit hr h hh

theorem right_of_run {as : List (κ × Op Position Nat)} (hrun : Run (step code) Calls (init p lk) as s) :
    Inv monitor.locks s ∧ monitor.Holds s ∧ Right s := by
  refine hrun.invariant (I := fun s => Inv monitor.locks s ∧ monitor.Holds s ∧ Right s) (fun s a t hs hc ht => ?_)
    ⟨.init p lk, .init p lk trivial, fun q x hx => ?_⟩
  · obtain ⟨h, hh, hr⟩ := hs
    obtain ⟨h', hh'⟩ := monitor_sound.step h hh hc.allows ht
    exact ⟨h', hh', hr.step h hh hc ht⟩
  · simp only [init] at hx
    split_ifs at hx <;> cases hx

/-- At most one call holds the lock, and the lock has the pid of its process; no holder panics, and nobody sleeps
when it is free. -/
theorem sleep_lock_excludes {as : List (κ × Op Position Nat)} (hrun : Run (step code) Calls (init p lk) as s) :
    (∀ y x, x ∈ positions (s.stack y) → x.holds = true →
      (∃ q, y = .proc q ∧ s.data = ⟨true, (s.proc q).pid⟩) ∧
      ∀ y' x', x' ∈ positions (s.stack y') → x'.holds = true → y' = y) ∧
    (∀ y x, x ∈ positions (s.stack y) → x ≠ .panic) ∧
    (s.lock (.client ()) = none → s.data.locked = false → ∀ q,
      ¬ ((s.proc q).state = .sleeping ∧ (s.proc q).chan = some (.client ()))) := by
  obtain ⟨h, hh, hr⟩ := right_of_run hrun
  refine ⟨fun y x hx hholds => ⟨?_, fun y' x' hx' hholds' => ?_⟩, fun y x hx hp => ?_,
    fun hfree hlk q => hh.awake monitor_sound h hfree hlk q⟩
  · obtain ⟨-, hown, hproc⟩ := hh.each y x hx
    obtain ⟨q, rfl⟩ := hproc rfl
    exact ⟨q, rfl, congrArg₂ Sleeplock.mk (hown hholds) ((hr q x hx).2.2 hholds)⟩
  · by_contra hy
    obtain he | he := hh.apart y' y x' x hy hx' hx
    · exact absurd (hholds'.symm.trans he) nofun
    · exact absurd (hholds.symm.trans he) nofun
  · obtain ⟨q, rfl⟩ := (hh.each y x hx).2.2 rfl
    have hw := (hr q x hx).2.1
    rw [hp] at hw
    cases hw

/-- One process has the lock and another sleeps for it. -/
def contendedRun : List (Bool × Op Position Nat) :=
  go false 3 ++ (false, .kfork) :: go false 9 ++ go true 5 ++ (false, .syscall .call) :: go false 1 ++
    (false, .access 1) :: (false, .access 1) :: go false 1 ++ (true, .syscall .call) :: go true 1 ++
    (true, .access 2) :: go true 5

theorem sleep_lock_excludes_contended : ∃ s : Sys 2 Bool Unit Unit Position Sleeplock,
    Run (step code) Calls (init 0 ⟨false, 0⟩) contendedRun s ∧
      (s.stack (.proc 0) = [.client .held, .user] ∧ (s.proc 1).state = .sleeping) ∧
      s.data = ⟨true, (s.proc 0).pid⟩ := by
  have hrun : ∃ s : Sys 2 Bool Unit Unit Position Sleeplock,
      Run (step code) Calls (init 0 ⟨false, 0⟩) contendedRun s ∧
        s.stack (.proc 0) = [.client .held, .user] ∧ (s.proc 1).state = .sleeping :=
    Run.exists_of_outcome (by decide +kernel)
  obtain ⟨s, hrun, hs⟩ := hrun
  obtain ⟨q, hq, hdata⟩ := ((sleep_lock_excludes hrun).1 (.proc 0) .held (hs.1 ▸ List.mem_cons_self) rfl).1
  cases hq
  exact ⟨s, hrun, hs, hdata⟩

end Xv6.SleepLock
