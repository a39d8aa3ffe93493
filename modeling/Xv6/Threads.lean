import Xv6.Lib.Transition
import Mathlib.Logic.Function.Basic
import Mathlib.Data.List.Basic

namespace Xv6.Threads

open Xv6.Lib Function

inductive ProcState where
  | unused
  | used
  | sleeping
  | runnable
  | running
  | zombie
  deriving DecidableEq

/-- What `sleep` and `wakeup` are given: a process, for `kwait`, or an address of other kernel code. -/
inductive Chan (n : Nat) (γ : Type) where
  | proc (p : Fin n)
  | client (ch : γ)
  deriving DecidableEq

/-- The spinlocks: `p->lock`, `wait_lock` and those of other kernel code. -/
inductive Lock (n : Nat) (Λ : Type) where
  | proc (p : Fin n)
  | wait
  | client (lk : Λ)
  deriving DecidableEq

/-- The fields of `struct proc` that `proc.c` uses for scheduling, waiting and killing. The defaults
are what `freeproc` leaves. -/
structure Proc (n : Nat) (γ : Type) where
  state : ProcState := .unused
  chan : Option (Chan n γ) := none
  killed : Bool := false
  xstate : Int := 0
  pid : Nat := 0
  parent : Option (Fin n) := none
  deriving DecidableEq

/-- One instruction of other kernel code, at the granularity of its locks: it may take and release
spinlocks, sleep, wake, ask whether the process has been killed, and use data of its own. -/
inductive Instr (Λ γ L D X : Type) where
  | acquire (lk : Λ) (k : L)
  | release (lk : Λ) (k : L)
  | sleep (ch : γ) (lk : Λ) (k : L)
  | wakeup (ch : γ) (k : L)
  | killed (k : Bool → L)
  | access (f : X → D → D × L)
  | ret

/-- The positions in `yield`: before `acquire`, before `sched`, back from `sched`. -/
inductive YieldAt where
  | acquire
  | sched
  | release
  deriving DecidableEq

inductive SleepAt where
  | acquire
  | release
  | sched
  | tidy
  | reacquire
  deriving DecidableEq

/-- A scan of the process table: before slot `i`, or with the lock of slot `q` held. -/
inductive ScanAt (n : Nat) where
  | next (i : Nat)
  | locked (q : Fin n)
  deriving DecidableEq

/-- The positions in `kfork`. -/
inductive ForkAt (n : Nat) where
  | scan (a : ScanAt n)
  | copy (q : Fin n)
  | waitLock (q : Fin n)
  | parent (q : Fin n)
  | lock (q : Fin n)
  | run (q : Fin n)
  deriving DecidableEq

inductive ExitAt where
  | waitLock
  | reparent (i : Nat)
  | wake
  | lock
  | zombie
  | sched
  | gone
  deriving DecidableEq

inductive WaitAt (n : Nat) where
  | lock
  | scan (i : Nat) (havekids : Bool)
  | locked (q : Fin n)
  | killed
  | done (r : Int)
  deriving DecidableEq

inductive SchedAt (n : Nat) where
  | scan (a : ScanAt n)
  | ran (q : Fin n)
  deriving DecidableEq

/-- An activation on a kernel stack. `user` is the bottom of a process's stack. -/
inductive Frame (n : Nat) (Λ γ L : Type) where
  | user
  | client (x : L)
  | clientKilled (x : L)
  | yield (a : YieldAt)
  | sleep (ch : Chan n γ) (lk : Lock n Λ) (a : SleepAt)
  | wakeup (ch : Option (Chan n γ)) (a : ScanAt n)
  | kkill (pid : Int) (a : ScanAt n)
  | setkilled (locked : Bool)
  | forkret
  | kfork (a : ForkAt n)
  | kexit (status : Int) (a : ExitAt)
  | kwait (addr : Nat) (a : WaitAt n)
  | scheduler (a : SchedAt n)
  deriving DecidableEq

inductive Thread (n : Nat) (κ : Type) where
  | proc (p : Fin n)
  | sched (c : κ)
  deriving DecidableEq

inductive Event where
  | allocated (pid : Nat)
  | killed (pid : Int)
  | setkilled (pid : Nat)
  | exited (pid : Nat) (status : Int)
  | waited (parent pid : Nat) (status : Int)
  deriving DecidableEq

/-- `cproc` is `c->proc`, `cur` the process on whose kernel stack the CPU runs, if it is not in its
scheduler. -/
structure Sys (n : Nat) (κ Λ γ L D : Type) where
  proc : Fin n → Proc n γ
  initproc : Fin n
  nextpid : Nat
  lock : Lock n Λ → Option κ
  noff : κ → Nat
  cproc : κ → Option (Fin n)
  cur : κ → Option (Fin n)
  stack : Thread n κ → List (Frame n Λ γ L)
  data : D
  events : List Event
  panicked : Option String

variable {n : Nat} {κ Λ γ L D X : Type} [DecidableEq κ] [DecidableEq Λ] [DecidableEq γ]
  {s t : Sys n κ Λ γ L D}

namespace Sys

def thread (s : Sys n κ Λ γ L D) (c : κ) : Thread n κ :=
  match s.cur c with
  | some p => .proc p
  | none => .sched c

def goto (s : Sys n κ Λ γ L D) (c : κ) (l : List (Frame n Λ γ L)) : Sys n κ Λ γ L D :=
  { s with stack := update s.stack (s.thread c) l }

def setProc (s : Sys n κ Λ γ L D) (q : Fin n) (x : Proc n γ) : Sys n κ Λ γ L D :=
  { s with proc := update s.proc q x }

def log (s : Sys n κ Λ γ L D) (e : Event) : Sys n κ Λ γ L D :=
  { s with events := e :: s.events }

def panic (s : Sys n κ Λ γ L D) (msg : String) : Sys n κ Λ γ L D :=
  { s with panicked := some msg }

def take (s : Sys n κ Λ γ L D) (c : κ) (k : Lock n Λ) : Sys n κ Λ γ L D :=
  { s with
    lock := update s.lock k (some c)
    noff := update s.noff c (s.noff c + 1) }

def drop (s : Sys n κ Λ γ L D) (c : κ) (k : Lock n Λ) : Sys n κ Λ γ L D :=
  { s with
    lock := update s.lock k none
    noff := update s.noff c (s.noff c - 1) }

/-- `acquire` followed by `f`. It spins, which is no step, while another CPU has the lock. -/
def acquire (s : Sys n κ Λ γ L D) (c : κ) (k : Lock n Λ) (f : Sys n κ Λ γ L D → Sys n κ Λ γ L D) :
    Option (Sys n κ Λ γ L D) :=
  if s.lock k = some c then some (s.panic "acquire")
  else if s.lock k = none then some (f (s.take c k))
  else none

def release (s : Sys n κ Λ γ L D) (c : κ) (k : Lock n Λ) (f : Sys n κ Λ γ L D → Sys n κ Λ γ L D) :
    Sys n κ Λ γ L D :=
  if s.lock k = some c then f (s.drop c k) else s.panic "release"

/-- `sched` by the process `p`, whose stack is `l` when it comes back. -/
def sched (s : Sys n κ Λ γ L D) (c : κ) (p : Fin n) (l : List (Frame n Λ γ L)) : Sys n κ Λ γ L D :=
  if s.lock (.proc p) ≠ some c then s.panic "sched p->lock"
  else if s.noff c ≠ 1 then s.panic "sched locks"
  else if (s.proc p).state = .running then s.panic "sched RUNNING"
  else { s.goto c l with cur := update s.cur c none }

end Sys

section Functions

variable (s : Sys n κ Λ γ L D) (c : κ) (p : Fin n) (rest : List (Frame n Λ γ L))

/-- The steps of the functions of `proc.c` on CPU `c`, each from its frame, with `rest` the frames under it. -/
def yieldStep : YieldAt → Option (Sys n κ Λ γ L D)
  | .acquire => s.acquire c (.proc p) fun s => s.goto c (.yield .sched :: rest)
  | .sched => some ((s.setProc p { s.proc p with state := .runnable }).sched c p
      (.yield .release :: rest))
  | .release => some (s.release c (.proc p) fun s => s.goto c rest)

def sleepStep (ch : Chan n γ) (lk : Lock n Λ) : SleepAt → Option (Sys n κ Λ γ L D)
  | .acquire => s.acquire c (.proc p) fun s => s.goto c (.sleep ch lk .release :: rest)
  | .release => some (s.release c lk fun s => s.goto c (.sleep ch lk .sched :: rest))
  | .sched => some ((s.setProc p { s.proc p with
      chan := some ch
      state := .sleeping }).sched c p (.sleep ch lk .tidy :: rest))
  | .tidy => some ((s.setProc p { s.proc p with chan := none }).release c (.proc p) fun s =>
      s.goto c (.sleep ch lk .reacquire :: rest))
  | .reacquire => s.acquire c lk fun s => s.goto c rest

def wake (ch : Option (Chan n γ)) (x : Proc n γ) : Proc n γ :=
  if x.state = .sleeping ∧ x.chan = ch then { x with state := .runnable } else x

def wakeupStep (ch : Option (Chan n γ)) : ScanAt n → Option (Sys n κ Λ γ L D)
  | .next i =>
    if h : i < n then
      if s.cproc c = some ⟨i, h⟩ then some (s.goto c (.wakeup ch (.next (i + 1)) :: rest))
      else s.acquire c (.proc ⟨i, h⟩) fun s => s.goto c (.wakeup ch (.locked ⟨i, h⟩) :: rest)
    else some (s.goto c rest)
  | .locked q => some ((s.setProc q (wake ch (s.proc q))).release c (.proc q) fun s =>
      s.goto c (.wakeup ch (.next (q + 1)) :: rest))

def kill (x : Proc n γ) : Proc n γ :=
  { x with
    killed := true
    state := if x.state = .sleeping then .runnable else x.state }

def kkillStep (pid : Int) : ScanAt n → Option (Sys n κ Λ γ L D)
  | .next i =>
    if h : i < n then
      s.acquire c (.proc ⟨i, h⟩) fun s => s.goto c (.kkill pid (.locked ⟨i, h⟩) :: rest)
    else some (s.goto c rest)
  | .locked q =>
    if ((s.proc q).pid : Int) = pid then
      some ((s.setProc q (kill (s.proc q))).release c (.proc q) fun s =>
        (s.log (.killed pid)).goto c rest)
    else some (s.release c (.proc q) fun s => s.goto c (.kkill pid (.next (q + 1)) :: rest))

def setkilledStep : Bool → Option (Sys n κ Λ γ L D)
  | false => s.acquire c (.proc p) fun s => s.goto c (.setkilled true :: rest)
  | true => some ((s.setProc p { s.proc p with killed := true }).release c (.proc p) fun s =>
      (s.log (.setkilled (s.proc p).pid)).goto c rest)

/-- `allocproc` once it has found slot `q`: the pid, the state, and a kernel stack from which the
process starts in `forkret`. -/
def alloc (q : Fin n) : Sys n κ Λ γ L D :=
  { s with
    proc := update s.proc q { s.proc q with
      pid := s.nextpid
      state := .used }
    nextpid := s.nextpid + 1
    stack := update s.stack (.proc q) [.forkret, .user]
    events := .allocated s.nextpid :: s.events }

/-- `ok` tells whether the allocations of `allocproc` and `uvmcopy` succeed. -/
def kforkStep (ok : Bool) : ForkAt n → Option (Sys n κ Λ γ L D)
  | .scan (.next i) =>
    if h : i < n then
      s.acquire c (.proc ⟨i, h⟩) fun s => s.goto c (.kfork (.scan (.locked ⟨i, h⟩)) :: rest)
    else some (s.goto c rest)
  | .scan (.locked q) =>
    if (s.proc q).state = .unused then some ((alloc s q).goto c (.kfork (.copy q) :: rest))
    else some (s.release c (.proc q) fun s => s.goto c (.kfork (.scan (.next (q + 1))) :: rest))
  | .copy q =>
    if ok then some (s.release c (.proc q) fun s => s.goto c (.kfork (.waitLock q) :: rest))
    else some ((s.setProc q {}).release c (.proc q) fun s => s.goto c rest)
  | .waitLock q => s.acquire c .wait fun s => s.goto c (.kfork (.parent q) :: rest)
  | .parent q => some ((s.setProc q { s.proc q with parent := some p }).release c .wait fun s =>
      s.goto c (.kfork (.lock q) :: rest))
  | .lock q => s.acquire c (.proc q) fun s => s.goto c (.kfork (.run q) :: rest)
  | .run q => some ((s.setProc q { s.proc q with state := .runnable }).release c (.proc q) fun s =>
      s.goto c rest)

/-- From `acquire(&wait_lock)` on. The loop of `reparent` stands here, with its calls of `wakeup`. -/
def kexitStep (status : Int) : ExitAt → Option (Sys n κ Λ γ L D)
  | .waitLock => s.acquire c .wait fun s => s.goto c (.kexit status (.reparent 0) :: rest)
  | .reparent i =>
    if h : i < n then
      if (s.proc ⟨i, h⟩).parent = some p then
        some ((s.setProc ⟨i, h⟩ { s.proc ⟨i, h⟩ with parent := some s.initproc }).goto c
          (.wakeup (some (.proc s.initproc)) (.next 0) :: .kexit status (.reparent (i + 1)) :: rest))
      else some (s.goto c (.kexit status (.reparent (i + 1)) :: rest))
    else some (s.goto c (.kexit status .wake :: rest))
  | .wake => some (s.goto c
      (.wakeup ((s.proc p).parent.map .proc) (.next 0) :: .kexit status .lock :: rest))
  | .lock => s.acquire c (.proc p) fun s => s.goto c (.kexit status .zombie :: rest)
  | .zombie => some ((s.setProc p { s.proc p with
      xstate := status
      state := .zombie }).release c .wait fun s =>
        (s.log (.exited (s.proc p).pid status)).goto c (.kexit status .sched :: rest))
  | .sched => some (s.sched c p (.kexit status .gone :: rest))
  | .gone => some (s.panic "zombie exit")

/-- `ok` tells whether `copyout` succeeds. -/
def kwaitStep (ok : Bool) (addr : Nat) : WaitAt n → Option (Sys n κ Λ γ L D)
  | .lock => s.acquire c .wait fun s => s.goto c (.kwait addr (.scan 0 false) :: rest)
  | .scan i havekids =>
    if h : i < n then
      if (s.proc ⟨i, h⟩).parent = some p then
        s.acquire c (.proc ⟨i, h⟩) fun s => s.goto c (.kwait addr (.locked ⟨i, h⟩) :: rest)
      else some (s.goto c (.kwait addr (.scan (i + 1) havekids) :: rest))
    else if havekids then s.acquire c (.proc p) fun s => s.goto c (.kwait addr .killed :: rest)
    else some (s.goto c (.kwait addr (.done (-1)) :: rest))
  | .locked q =>
    if (s.proc q).state = .zombie then
      if addr ≠ 0 ∧ ok = false then
        some (s.release c (.proc q) fun s => s.goto c (.kwait addr (.done (-1)) :: rest))
      else
        some ((s.setProc q {}).release c (.proc q) fun t =>
          (t.log (.waited (s.proc p).pid (s.proc q).pid (s.proc q).xstate)).goto c
            (.kwait addr (.done (s.proc q).pid) :: rest))
    else some (s.release c (.proc q) fun s => s.goto c (.kwait addr (.scan (q + 1) true) :: rest))
  | .killed => some (s.release c (.proc p) fun s => s.goto c
      (if (s.proc p).killed then .kwait addr (.done (-1)) :: rest
      else .sleep (.proc p) .wait .acquire :: .kwait addr (.scan 0 false) :: rest))
  | .done _ => some (s.release c .wait fun s => s.goto c rest)

def dispatch (q : Fin n) : Sys n κ Λ γ L D :=
  { (s.setProc q { s.proc q with state := .running }).goto c [.scheduler (.ran q)] with
    cproc := update s.cproc c (some q)
    cur := update s.cur c (some q) }

def schedulerStep : SchedAt n → Option (Sys n κ Λ γ L D)
  | .scan (.next i) =>
    if h : i < n then
      s.acquire c (.proc ⟨i, h⟩) fun s => s.goto c (.scheduler (.scan (.locked ⟨i, h⟩)) :: rest)
    else some (s.goto c (.scheduler (.scan (.next 0)) :: rest))
  | .scan (.locked q) =>
    if (s.proc q).state = .runnable then some (dispatch s c q)
    else some (s.release c (.proc q) fun s => s.goto c (.scheduler (.scan (.next (q + 1))) :: rest))
  | .ran q => some (({ s with cproc := update s.cproc c none }).release c (.proc q) fun s =>
      s.goto c (.scheduler (.scan (.next (q + 1))) :: rest))

def clientStep (code : L → Instr Λ γ L D X) (x : L) : Option (Sys n κ Λ γ L D) :=
  match code x with
  | .acquire lk k => s.acquire c (.client lk) fun s => s.goto c (.client k :: rest)
  | .release lk k => some (s.release c (.client lk) fun s => s.goto c (.client k :: rest))
  | .sleep ch lk k => some (s.goto c
      (.sleep (.client ch) (.client lk) .acquire :: .client k :: rest))
  | .wakeup ch k => some (s.goto c (.wakeup (some (.client ch)) (.next 0) :: .client k :: rest))
  | .killed _ =>
    match s.cproc c with
    | some p => s.acquire c (.proc p) fun s => s.goto c (.clientKilled x :: rest)
    | none => none
  | .access _ => none
  | .ret => some (s.goto c rest)

/-- The use that other kernel code makes of its data; `x` is what it depends on besides. -/
def accessStep (code : L → Instr Λ γ L D X) (x : X) (k : L) : Option (Sys n κ Λ γ L D) :=
  match code k with
  | .access f => some ({ s with data := (f x s.data).1 }.goto c (.client (f x s.data).2 :: rest))
  | _ => none

def clientKilledStep (code : L → Instr Λ γ L D X) (x : L) : Option (Sys n κ Λ γ L D) :=
  match code x with
  | .killed k => some (s.release c (.proc p) fun s =>
      s.goto c (.client (k (s.proc p).killed) :: rest))
  | _ => none

def procStep (code : L → Instr Λ γ L D X) (ok : Bool) :
    Frame n Λ γ L → Option (Sys n κ Λ γ L D)
  | .clientKilled x => clientKilledStep s c p rest code x
  | .yield a => yieldStep s c p rest a
  | .sleep ch lk a => sleepStep s c p rest ch lk a
  | .setkilled locked => setkilledStep s c p rest locked
  | .forkret => some (s.release c (.proc p) fun s => s.goto c rest)
  | .kfork a => kforkStep s c p rest ok a
  | .kexit status a => kexitStep s c p rest status a
  | .kwait addr a => kwaitStep s c p rest ok addr a
  | _ => none

def goStep (code : L → Instr Λ γ L D X) (ok : Bool) : Frame n Λ γ L → Option (Sys n κ Λ γ L D)
  | .client x => clientStep s c rest code x
  | .wakeup ch a => wakeupStep s c rest ch a
  | .kkill pid a => kkillStep s c rest pid a
  | .scheduler a => schedulerStep s c rest a
  | f =>
    match s.cproc c with
    | some p => procStep s c p rest code ok f
    | none => none

end Functions

/-- What a CPU does next. `go` continues the function it is in and `access` the other kernel code; `intr` and
`timer` are interrupts, and the others enter the kernel from user space. -/
inductive Op (L X : Type) where
  | go (ok : Bool)
  | access (x : X)
  | intr (x : L)
  | timer
  | syscall (x : L)
  | kfork
  | kexit (status : Int)
  | kwait (addr : Nat)
  | kkill (pid : Int)
  | setkilled
  deriving DecidableEq

def Op.entry : Op L X → Option (Frame n Λ γ L)
  | .intr x => some (.client x)
  | .timer => some (.yield .acquire)
  | .syscall x => some (.client x)
  | .kfork => some (.kfork (.scan (.next 0)))
  | .kexit status => some (.kexit status .waitLock)
  | .kwait addr => some (.kwait addr .lock)
  | .kkill pid => some (.kkill pid (.next 0))
  | .setkilled => some (.setkilled false)
  | .go _ => none
  | .access _ => none

/-- Whether the operation can begin on top of the frames `l`. -/
def Op.begins (s : Sys n κ Λ γ L D) (c : κ) (l : List (Frame n Λ γ L)) : Op L X → Bool
  | .intr _ => s.noff c = 0
  | .timer => s.noff c = 0 ∧ (s.cproc c).isSome
  | _ => l matches [.user]

def enterStep (s : Sys n κ Λ γ L D) (c : κ) (op : Op L X) : Option (Sys n κ Λ γ L D) :=
  match op.entry with
  | none => none
  | some f =>
    if op.begins s c (s.stack (s.thread c)) then
      if op matches .kexit _ ∧ s.cproc c = some s.initproc then some (s.panic "init exiting")
      else some (s.goto c (f :: s.stack (s.thread c)))
    else none

def step (code : L → Instr Λ γ L D X) (s : Sys n κ Λ γ L D) (a : κ × Op L X) :
    Option (Sys n κ Λ γ L D) :=
  if s.panicked.isSome then none
  else
    match a.2 with
    | .go ok =>
      match s.stack (s.thread a.1) with
      | f :: rest => goStep s a.1 rest code ok f
      | [] => none
    | .access v =>
      match s.stack (s.thread a.1) with
      | .client x :: rest => accessStep s a.1 rest code v x
      | _ => none
    | op => enterStep s a.1 op

omit [DecidableEq Λ] [DecidableEq γ] in
theorem enterStep_cases {c : κ} {op : Op L X} (ht : enterStep s c op = some t) :
    t = s.panic "init exiting" ∨ ∃ f, op.entry = some f ∧
      op.begins s c (s.stack (s.thread c)) = true ∧ t = s.goto c (f :: s.stack (s.thread c)) := by
  unfold enterStep at ht
  split at ht
  · cases ht
  · next f hf =>
    split_ifs at ht with hb
    · exact .inl (Option.some.inj ht).symm
    · exact .inr ⟨f, hf, hb, (Option.some.inj ht).symm⟩

theorem step_cases {code : L → Instr Λ γ L D X} {a : κ × Op L X} (ht : step code s a = some t) :
    (∃ ok f rest, a.2 = .go ok ∧ s.stack (s.thread a.1) = f :: rest ∧
      goStep s a.1 rest code ok f = some t) ∨
    (∃ v x rest, a.2 = .access v ∧ s.stack (s.thread a.1) = .client x :: rest ∧
      accessStep s a.1 rest code v x = some t) ∨ enterStep s a.1 a.2 = some t := by
  unfold step at ht
  split_ifs at ht
  split at ht
  · next ok hop =>
    split at ht
    · next f rest hstk => exact .inl ⟨ok, f, rest, hop, hstk, ht⟩
    · cases ht
  · next v hop =>
    split at ht
    · next x rest hstk => exact .inr (.inl ⟨v, x, rest, hop, hstk, ht⟩)
    · cases ht
  · exact .inr (.inr ht)

omit [DecidableEq Λ] [DecidableEq γ] in
theorem accessStep_cases {code : L → Instr Λ γ L D X} {c : κ} {v : X} {x : L}
    {rest : List (Frame n Λ γ L)} (ht : accessStep s c rest code v x = some t) :
    ∃ f, code x = .access f ∧
      t = { s with data := (f v s.data).1 }.goto c (.client (f v s.data).2 :: rest) := by
  unfold accessStep at ht
  split at ht
  · next f hf => exact ⟨f, hf, (Option.some.inj ht).symm⟩
  · cases ht

/-- After `userinit`: the first process is runnable and every CPU is in `scheduler`. -/
def init (p : Fin n) (d : D) : Sys n κ Λ γ L D where
  proc := update (fun _ => {}) p { state := .runnable, pid := 1 }
  initproc := p
  nextpid := 2
  lock := fun _ => none
  noff := fun _ => 0
  cproc := fun _ => none
  cur := fun _ => none
  stack := fun t =>
    match t with
    | .proc q => if q = p then [.forkret, .user] else []
    | .sched _ => [.scheduler (.scan (.next 0))]
  data := d
  events := [.allocated 1]
  panicked := none

end Xv6.Threads
