import Xv6.MonitorSteps

namespace Xv6.Rendezvous

open Xv6.Lib Xv6.Threads

variable {n : Nat} {κ D X : Type}

/-- The positions in `acquire(lk); while(!cond) sleep(chan, lk); use; release(lk)`. -/
inductive SleeperAt where
  | call
  | head
  | sleep
  | use
  | release
  deriving DecidableEq

/-- The positions in `acquire(lk); make cond true; wakeup(chan); release(lk)`. -/
inductive WakerAt where
  | call
  | make
  | wake
  | release
  deriving DecidableEq

inductive Position where
  | sleeper (a : SleeperAt)
  | waker (a : WakerAt)
  | done
  deriving DecidableEq

section

variable (cond : D → Bool) (use make : X → D → D)

/-- Sleepers and wakers with one lock and one channel. What they do to the data may depend on anything
else, which is in `X`. -/
def code : Position → Instr Unit Unit Position D X
  | .sleeper .call => .acquire () (.sleeper .head)
  | .sleeper .head => .access fun _ d => (d, .sleeper (if cond d then .use else .sleep))
  | .sleeper .sleep => .sleep () () (.sleeper .head)
  | .sleeper .use => .access fun v d => (use v d, .sleeper .release)
  | .sleeper .release => .release () .done
  | .waker .call => .acquire () (.waker .make)
  | .waker .make => .access fun v d => (make v d, .waker .wake)
  | .waker .wake => .wakeup () (.waker .release)
  | .waker .release => .release () .done
  | .done => .ret

/-- Processes call sleepers and wakers, and interrupts call wakers. -/
def Calls : κ × Op Position X → Prop
  | (_, .syscall x) => x = .sleeper .call ∨ x = .waker .call
  | (_, .intr x) => x = .waker .call
  | _ => True

instance (a : κ × Op Position X) : Decidable (Calls a) := by
  unfold Calls
  split <;> infer_instance

/-- Who has called `make` owes a wakeup. -/
def monitor : Monitor Unit Position D where
  entry x := x = .sleeper .call ∨ x = .waker .call
  sleeps x := x matches .sleeper _
  inside
    | .sleeper a => a ≠ .call
    | .waker a => a ≠ .call
    | .done => false
  bad _ := false
  inv _ := True
  pre
    | .sleeper .sleep, d => cond d = false
    | .sleeper .use, d => cond d = true
    | _, _ => True
  own _ _ := True
  apart _ _ := True
  ready _ d := cond d = true
  owes _ x := x = .waker .wake

theorem monitor_goes {x k : Position} {d d' : D}
    (h : (monitor cond).sleeps k = true → (monitor cond).sleeps x = true) :
    (monitor cond).Goes x k d d' :=
  ⟨h, trivial, fun _ _ _ => ⟨trivial, trivial⟩⟩

theorem monitor_sound : (monitor cond).Sound (code cond use make) := by
  refine ⟨fun x => ?_, fun x hx => ?_, fun _ _ _ => trivial, fun ch x hx => ?_, fun x d _ _ _ hpre => ?_⟩
  · cases x with
    | sleeper a =>
      cases a with
      | head =>
        intro v d
        by_cases hc : cond d = true <;> simp [monitor, hc]
      | _ => simp [Monitor.Locked, code, monitor]
    | waker a => cases a <;> simp [Monitor.Locked, code, monitor]
    | done => simp [Monitor.Locked, code, monitor]
  · have hx : x = .sleeper .call ∨ x = .waker .call := by simpa [monitor] using hx
    rcases hx with rfl | rfl <;> exact ⟨rfl, rfl, fun _ => trivial, fun _ => trivial⟩
  · rw [show x = .waker .wake from hx]
    rfl
  · unfold Monitor.Checked
    cases x with
    | sleeper a =>
      cases a with
      | call => exact ⟨rfl, monitor_goes cond fun _ => rfl, trivial⟩
      | head =>
        refine fun v => ⟨rfl, monitor_goes cond fun _ => rfl, trivial, ?_, fun ch hx => (by cases hx),
          fun ch hr => .inl hr⟩
        by_cases hc : cond d = true
        · simp [monitor, hc]
        · simp [monitor, hc]
      | sleep =>
        have hc : cond d = false := hpre rfl
        refine ⟨rfl, monitor_goes cond fun _ => rfl, fun ch hx => (by cases hx), ?_, fun _ _ _ => trivial⟩
        simp [monitor, hc]
      | use =>
        have hc : cond d = true := hpre rfl
        exact fun v => ⟨rfl, monitor_goes cond fun _ => rfl, trivial, trivial, fun ch hx => (by cases hx),
          fun ch _ => .inl hc⟩
      | release => exact ⟨rfl, monitor_goes cond fun _ => rfl, fun ch hx => (by cases hx)⟩
    | waker a =>
      cases a with
      | call => exact ⟨rfl, monitor_goes cond fun hs => (by cases hs), trivial⟩
      | make =>
        exact fun v => ⟨rfl, monitor_goes cond fun hs => (by cases hs), trivial, trivial,
          fun ch hx => (by cases hx), fun ch _ => .inr rfl⟩
      | wake => exact ⟨rfl, monitor_goes cond fun hs => (by cases hs), trivial, fun ch' _ => .inl rfl⟩
      | release => exact ⟨rfl, monitor_goes cond fun hs => (by cases hs), fun ch hx => (by cases hx)⟩
    | done => trivial

end

variable [DecidableEq κ] {cond : D → Bool} {use make : X → D → D} {s : Sys n κ Unit Unit Position D}

omit [DecidableEq κ] in
theorem Calls.allows {a : κ × Op Position X} (h : Calls a) :
    (monitor cond).Allows (code cond use make) s a := by
  obtain ⟨c, op⟩ := a
  unfold Monitor.Allows
  split
  · next x heq =>
    cases heq
    have hx : x = .sleeper .call ∨ x = .waker .call := h
    simpa [monitor] using hx
  · next x heq =>
    cases heq
    have hx : x = .waker .call := h
    rw [hx]
    exact ⟨rfl, rfl⟩
  · split
    · split
      · rfl
      · trivial
    · trivial
  · trivial

/-- While the lock is free and the condition holds, nobody sleeps on the channel. -/
theorem no_lost_wakeup {p : Fin n} {d : D} {as : List (κ × Op Position X)}
    (hrun : Run (step (code cond use make)) (fun _ a => Calls a) (init p d) as s)
    (hfree : s.lock (.client ()) = none) (hcond : cond s.data = true) (q : Fin n) :
    ¬ ((s.proc q).state = .sleeping ∧ (s.proc q).chan = some (.client ())) := by
  have hM := monitor_sound cond use make
  have hrun' : Run (step (code cond use make)) ((monitor cond).Allows (code cond use make)) (init p d)
      as s := hrun.mono fun s a ha => ha.allows
  obtain ⟨h, hh⟩ := hM.holds (show (monitor cond).inv d from trivial) hrun'
  exact hh.awake hM h hfree (show (monitor cond).ready () s.data from hcond) q

/-- A flag that a process sets and another waits for and clears. -/
def flagCode : Position → Instr Unit Unit Position Bool Unit :=
  code id (fun _ _ => false) (fun _ _ => true)

/-- A forked process goes to sleep on a second CPU and the first one wakes it. -/
def flagRun : List (Bool × Op Position Unit) :=
  go false 3 ++ (false, .kfork) :: go false 9 ++ go true 5 ++ (true, .syscall (.sleeper .call)) ::
    go true 1 ++ (true, .access ()) :: go true 5 ++ (false, .syscall (.waker .call)) :: go false 1 ++
    (false, .access ()) :: go false 7

theorem no_lost_wakeup_flag : ∃ s : Sys 2 Bool Unit Unit Position Bool,
    Run (step flagCode) (fun _ a => Calls a) (init 0 false) flagRun s ∧
      (s.lock (.client ()) = none ∧ s.data = true ∧ (s.proc 1).state = .runnable ∧
        (s.proc 1).chan = some (.client ())) ∧
      ¬ ((s.proc 1).state = .sleeping ∧ (s.proc 1).chan = some (.client ())) := by
  have hrun : ∃ s : Sys 2 Bool Unit Unit Position Bool,
      Run (step flagCode) (fun _ a => Calls a) (init 0 false) flagRun s ∧
        s.lock (.client ()) = none ∧ s.data = true ∧ (s.proc 1).state = .runnable ∧
          (s.proc 1).chan = some (.client ()) :=
    Run.exists_of_outcome (by decide +kernel)
  obtain ⟨s, hrun, hs⟩ := hrun
  exact ⟨s, hrun, hs, no_lost_wakeup hrun hs.1 hs.2.1 1⟩

end Xv6.Rendezvous
