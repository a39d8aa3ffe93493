import Xv6.PipeFifo

namespace Xv6.Pipe

open Xv6.Lib Xv6.Threads

def Ready : Addr → State → Prop
  | .nread, d => ¬ d.empty ∨ d.writeopen = false
  | .nwrite, d => ¬ d.full ∨ d.readopen = false

/-- The address whose sleepers the call has made ready and has yet to wake. -/
def Position.owes : Position → Option Addr
  | .writeHead w => if w.dirty then some .nread else none
  | .writeKilled w => if w.dirty then some .nread else none
  | .writeTry w => if w.dirty then some .nread else none
  | .writeWake w => if w.dirty then some .nread else none
  | .writeEnd w => if w.dirty then some .nread else none
  | .closeWake writable => some (if writable then .nread else .nwrite)
  | .readCopy _ _ => some .nwrite
  | .readEnd _ => some .nwrite
  | _ => none

def wakesMonitor : Monitor Addr Position State where
  entry := Position.isCall
  sleeps _ := true
  inside := Position.inside
  bad
    | .writeRelease _ dirty => dirty
    | _ => false
  inv _ := True
  pre
    | .writeHead w, d => w.dirty = true → d.readopen = true
    | .writeKilled _, d => d.readopen = true
    | .writeTry _, d => d.readopen = true
    | .writeWake _, d => d.full ∧ d.readopen = true
    | .writeSleep _, d => d.full ∧ d.readopen = true
    | .writeSlept w, _ => w.dirty = false
    | .readKilled _, d => d.empty ∧ d.writeopen = true
    | .readSleep _, d => d.empty ∧ d.writeopen = true
    | _, _ => True
  own
    | .writeSleep w, _ => w.dirty = false
    | .writeSlept w, _ => w.dirty = false
    | _, _ => True
  apart _ _ := True
  ready := Ready
  owes ch x := x.owes = some ch

variable {d : State} {w : Writer}

theorem wakesMonitor_goes {x k : Position} {d d' : State} (hk : wakesMonitor.own k d') :
    wakesMonitor.Goes x k d d' := by
  refine ⟨fun _ => rfl, hk, fun z _ hz => ⟨?_, trivial⟩⟩
  cases z <;> exact hz

theorem wakesMonitor_access {x k : Position} {d d' : State} (hx : x.inside = true)
    (hbad : wakesMonitor.bad k = false) (hown : wakesMonitor.own k d') (hpre : wakesMonitor.pre k d')
    (howes : ∀ ch, x.owes = some ch → k.owes = some ch)
    (hready : ∀ ch, Ready ch d' → Ready ch d ∨ k.owes = some ch) :
    wakesMonitor.Accessed x k d d' := by
  refine ⟨hbad, wakesMonitor_goes hown, trivial, ?_, howes, hready⟩
  rw [if_pos (show wakesMonitor.inside x = true from hx)]
  exact hpre

theorem wakesMonitor_checked (x : Position) (d : State) (hown : wakesMonitor.own x d)
    (hpre : x.inside = true → wakesMonitor.pre x d) : wakesMonitor.Checked code x d := by
  unfold Monitor.Checked
  cases x with
  | writeCall n | readCall n | closeCall writable => exact ⟨rfl, wakesMonitor_goes trivial, trivial⟩
  | writeBegin n =>
    exact fun v => wakesMonitor_access rfl rfl trivial (fun hw => (by cases hw)) (fun _ hx => hx)
      fun ch hr => .inl (by cases ch <;> exact hr)
  | writeHead w =>
    have hp : w.dirty = true → d.readopen = true := hpre rfl
    intro v
    by_cases hi : (w.i : Int) < w.n
    · simp only [if_pos hi]
      by_cases hopen : d.readopen = false
      · have hd : w.dirty = false := Bool.eq_false_iff.mpr fun hd => by simp [hp hd] at hopen
        simp only [if_pos hopen]
        exact wakesMonitor_access rfl hd trivial trivial (fun _ hx => absurd hx (by simp [Position.owes, hd]))
          fun _ hr => .inl hr
      · have hopen' : d.readopen = true := by simpa using hopen
        simp only [if_neg hopen]
        exact wakesMonitor_access rfl rfl trivial hopen' (fun _ hx => hx) fun _ hr => .inl hr
    · simp only [if_neg hi]
      exact wakesMonitor_access rfl rfl trivial trivial (fun _ hx => hx) fun _ hr => .inl hr
  | writeKilled w =>
    intro b hb
    cases b with
    | true =>
      have hd : w.dirty = false := hb
      exact ⟨wakesMonitor_goes trivial, fun _ => trivial,
        fun _ hx => absurd hx (by simp [wakesMonitor, Position.owes, hd])⟩
    | false => exact ⟨wakesMonitor_goes trivial, fun _ => hpre rfl, fun _ hx => hx⟩
  | writeTry w =>
    have hp : d.readopen = true := hpre rfl
    intro v
    by_cases hfull : d.full
    · simp only [if_pos hfull]
      exact wakesMonitor_access rfl rfl trivial ⟨hfull, hp⟩ (fun _ hx => hx) fun _ hr => .inl hr
    · simp only [if_neg hfull]
      cases v with
      | none => exact wakesMonitor_access rfl rfl trivial trivial (fun _ hx => hx) fun _ hr => .inl hr
      | some b =>
        refine wakesMonitor_access rfl rfl trivial (fun _ => hp) (fun ch hx => ?_) fun ch hr => ?_
        · have hx : (if w.dirty then some Addr.nread else none) = some ch := hx
          split_ifs at hx
          exact hx
        · cases ch with
          | nread => exact .inr rfl
          | nwrite => exact .inl (.inl hfull)
  | writeWake w =>
    refine ⟨rfl, wakesMonitor_goes rfl, hpre rfl, fun ch hx => ?_⟩
    have hx : (if w.dirty then some Addr.nread else none) = some ch := hx
    split_ifs at hx
    exact .inl (Option.some.inj hx).symm
  | writeSleep w =>
    have hp : d.full ∧ d.readopen = true := hpre rfl
    refine ⟨rfl, wakesMonitor_goes hown, fun _ hx => (by cases hx), ?_, fun _ _ h => h⟩
    rintro (h | h)
    · exact h hp.1
    · simp [hp.2] at h
  | writeSlept w =>
    have hd : w.dirty = false := hown
    exact fun v => wakesMonitor_access rfl rfl trivial (fun h => by simp [hd] at h)
      (fun _ hx => by cases hx) fun _ hr => .inl hr
  | writeEnd w =>
    refine ⟨rfl, wakesMonitor_goes trivial, trivial, fun ch hx => ?_⟩
    have hx : (if w.dirty then some Addr.nread else none) = some ch := hx
    split_ifs at hx
    exact .inl (Option.some.inj hx).symm
  | writeRelease r dirty | readRelease r | closeRelease =>
    exact ⟨rfl, wakesMonitor_goes trivial, fun _ hx => by cases hx⟩
  | readHead n =>
    intro v
    by_cases hwait : d.empty ∧ d.writeopen = true
    · simp only [if_pos hwait]
      exact wakesMonitor_access rfl rfl trivial hwait (fun _ hx => hx) fun _ hr => .inl hr
    · simp only [if_neg hwait]
      exact wakesMonitor_access rfl rfl trivial trivial (fun _ hx => by cases hx) fun _ hr => .inl hr
  | readKilled n =>
    intro b _
    cases b with
    | true => exact ⟨wakesMonitor_goes trivial, fun _ => trivial, fun _ hx => hx⟩
    | false => exact ⟨wakesMonitor_goes trivial, fun _ => hpre rfl, fun _ hx => hx⟩
  | readSleep n =>
    have hp : d.empty ∧ d.writeopen = true := hpre rfl
    refine ⟨rfl, wakesMonitor_goes trivial, fun _ hx => (by cases hx), ?_, fun _ _ _ => trivial⟩
    rintro (h | h)
    · exact h hp.1
    · simp [hp.2] at h
  | readCopy n i =>
    intro v
    by_cases hi : i < n
    · simp only [if_pos hi]
      by_cases hempty : d.empty
      · simp only [if_pos hempty]
        exact wakesMonitor_access rfl rfl trivial trivial (fun _ hx => hx) fun _ hr => .inl hr
      · simp only [if_neg hempty]
        have hready : ∀ k : Position, k.owes = some .nwrite → ∀ ch, Ready ch d.read →
            Ready ch d ∨ k.owes = some ch := by
          intro k hk ch _
          cases ch with
          | nread => exact .inl (.inl hempty)
          | nwrite => exact .inr hk
        cases v with
        | none | some b => exact wakesMonitor_access rfl rfl trivial trivial (fun _ hx => hx) (hready _ rfl)
    · simp only [if_neg hi]
      exact wakesMonitor_access rfl rfl trivial trivial (fun _ hx => hx) fun _ hr => .inl hr
  | readEnd r | closeWake writable =>
    exact ⟨rfl, wakesMonitor_goes trivial, trivial, fun ch hx => .inl (Option.some.inj hx).symm⟩
  | closeSet writable =>
    refine fun v => wakesMonitor_access rfl rfl trivial trivial (fun _ hx => by cases hx) fun ch hr => ?_
    cases writable <;> cases ch <;> first | exact .inr rfl | exact .inl hr
  | done r => trivial

theorem wakesMonitor_sound : wakesMonitor.Sound code := by
  refine ⟨code_locked rfl fun _ => rfl, fun x hx => ?_, fun _ _ _ => trivial, fun ch x hx => ?_,
    fun x d _ _ => wakesMonitor_checked x d⟩
  · cases x <;> first | exact ⟨rfl, rfl, fun _ => trivial, fun _ => trivial⟩ | cases hx
  · cases x <;> first | rfl | cases hx

/-- No `pipewrite` finds its process killed after it has put bytes in since its last `wakeup`. -/
def Unharmed {n : Nat} {κ : Type} (s : Sys n κ Unit Addr Position State) :
    κ × Op Position (Option UInt8) → Prop
  | (c, .go _) =>
    match s.stack (s.thread c), s.cur c with
    | .clientKilled (.writeKilled w) :: _, some p => w.dirty = true → (s.proc p).killed = false
    | _, _ => True
  | _ => True

instance {n : Nat} {κ : Type} (s : Sys n κ Unit Addr Position State)
    (a : κ × Op Position (Option UInt8)) : Decidable (Unharmed s a) := by
  obtain ⟨c, op⟩ := a
  cases op with
  | go ok =>
    dsimp only [Unharmed]
    generalize s.stack (s.thread c) = frames, s.cur c = running
    rcases frames with _ | ⟨f, rest⟩
    · exact .isTrue trivial
    · cases f with
      | clientKilled x =>
        cases x with
        | writeKilled w =>
          cases running with
          | none => exact .isTrue trivial
          | some p => exact inferInstanceAs (Decidable (w.dirty = true → (s.proc p).killed = false))
        | _ => exact .isTrue trivial
      | _ => exact .isTrue trivial
  | _ => exact .isTrue trivial

variable {n : Nat} {κ : Type} {s : Sys n κ Unit Addr Position State}

theorem Calls.allows_wakes {a : κ × Op Position (Option UInt8)} (h : Calls a) (hu : Unharmed s a) :
    wakesMonitor.Allows code s a := by
  obtain ⟨c, op⟩ := a
  unfold Monitor.Allows
  split
  · next heq =>
    cases heq
    exact h
  · next heq =>
    cases heq
    exact h.elim
  · next heq =>
    cases heq
    split
    · next x _ p hstk hcur =>
      cases x with
      | writeKilled w =>
        have hu : w.dirty = true → (s.proc p).killed = false := by
          simpa only [Unharmed, hstk, hcur] using hu
        cases hk : (s.proc p).killed with
        | true => exact Bool.eq_false_iff.mpr fun hd => by simp [hu hd] at hk
        | false => rfl
      | readKilled n => cases hk : (s.proc p).killed <;> rfl
      | _ => trivial
    · trivial
  · trivial

/-- Whoever sleeps in `piperead` has nothing to read and whoever sleeps in `pipewrite` has no room, and
the other side is open, when the lock is free. -/
theorem pipe_sleepers_wait [DecidableEq κ] {data : Nat → UInt8} {p : Fin n}
    {as : List (κ × Op Position (Option UInt8))}
    (hrun : Run (step code) (fun s a => Calls a ∧ Unharmed s a) (init p (State.alloc data)) as s)
    (hfree : s.lock (.client ()) = none) (q : Fin n) (hq : (s.proc q).state = .sleeping) :
    ((s.proc q).chan = some (.client .nread) →
      s.data.put.length = s.data.taken.length ∧ s.data.writeopen = true) ∧
    ((s.proc q).chan = some (.client .nwrite) →
      s.data.put.length = s.data.taken.length + pipeSize ∧ s.data.readopen = true) := by
  have hM := wakesMonitor_sound
  obtain ⟨-, hfifo⟩ := fifoMonitor_sound.holds (Fifo.alloc data) (hrun.mono fun s a ha => ha.1.allows_fifo)
  obtain ⟨unread, hring, hput⟩ := Fifo.queue hfifo.data
  have hlen : s.data.put.length = s.data.taken.length + unread.length := by
    rw [← List.length_append, ← hput, List.length_map]
  have hd : wakesMonitor.inv (State.alloc data) := trivial
  obtain ⟨h, hh⟩ := hM.holds hd (hrun.mono fun s a ha => ha.1.allows_wakes ha.2)
  have hnot : ∀ ch, (s.proc q).chan = some (.client ch) → ¬ Ready ch s.data := fun ch hch hr =>
    hh.awake hM h hfree (show wakesMonitor.ready ch s.data from hr) q ⟨hq, hch⟩
  constructor
  · intro hch
    obtain ⟨hempty, hopen⟩ := not_or.mp (hnot .nread hch)
    have hnil : unread = [] := (hring.eq_nil_iff (by decide)).mp (not_not.mp hempty)
    rw [hnil] at hlen
    exact ⟨hlen, by simpa using hopen⟩
  · intro hch
    obtain ⟨hfull, hopen⟩ := not_or.mp (hnot .nwrite hch)
    have hsize : unread.length = pipeSize := (hring.full_iff (by decide)).mp (not_not.mp hfull)
    rw [hsize] at hlen
    exact ⟨hlen, by simpa using hopen⟩

def readRun : List (Bool × Op Position (Option UInt8)) :=
  go false 3 ++ (false, .kfork) :: go false 9 ++ go true 5 ++ (true, .syscall (.readCall 1)) ::
    go true 1 ++ (true, .access none) :: go true 6

theorem pipe_sleepers_wait_reader : ∃ s : Sys 2 Bool Unit Addr Position State,
    Run (step code) (fun s a => Calls a ∧ Unharmed s a) (init 0 (State.alloc fun _ => 0)) readRun s ∧
      (s.lock (.client ()) = none ∧ (s.proc 1).state = .sleeping ∧
        (s.proc 1).chan = some (.client .nread)) ∧
      s.data.put.length = s.data.taken.length ∧ s.data.writeopen = true := by
  have hrun : ∃ s : Sys 2 Bool Unit Addr Position State,
      Run (step code) (fun s a => Calls a ∧ Unharmed s a) (init 0 (State.alloc fun _ => 0)) readRun s ∧
        s.lock (.client ()) = none ∧ (s.proc 1).state = .sleeping ∧
          (s.proc 1).chan = some (.client .nread) :=
    Run.exists_of_outcome (by decide +kernel)
  obtain ⟨s, hrun, hs⟩ := hrun
  exact ⟨s, hrun, hs, (pipe_sleepers_wait hrun hs.1 1 hs.2.1).1 hs.2.2⟩

/-- A reader sleeps; a writer puts a byte in and is killed from another CPU before its second byte. -/
def killRun : List (Bool × Op Position (Option UInt8)) :=
  go false 3 ++ (false, .kfork) :: go false 9 ++ (false, .kfork) :: go false 11 ++ go true 5 ++
    (true, .syscall (.readCall 1)) :: go true 1 ++ (true, .access none) :: go true 6 ++ go true 4 ++
    (true, .syscall (.writeCall 2)) :: go true 1 ++ (true, .access none) :: (true, .access none) ::
    go true 2 ++ (true, .access (some 7)) :: (false, .kkill 3) :: go false 6 ++
    (true, .access none) :: go true 4

/-- The killed writer returns without a `wakeup` and the reader sleeps on, with a byte to read. -/
theorem pipewrite_killed_strands_reader : ∃ s : Sys 3 Bool Unit Addr Position State,
    Run (step code) (fun _ a => Calls a) (init 0 (State.alloc fun _ => 0)) killRun s ∧
      s.lock (.client ()) = none ∧ (s.proc 1).state = .sleeping ∧
        (s.proc 1).chan = some (.client .nread) ∧ s.data.nread ≠ s.data.nwrite ∧
        s.data.taken.length < s.data.put.length :=
  Run.exists_of_outcome (by decide +kernel)

end Xv6.Pipe
