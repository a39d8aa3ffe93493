import Xv6.LogOps
import Xv6.LogRecovery
import Xv6.Lib.Family
import Xv6.Lib.Transition

namespace Xv6.LogSystem

open Xv6.Lib Xv6.BufferCache Xv6.LogCommit Function

/-- Where one round of the loop in `write_log` or `install_trans` stands: the log
block's buffer is read first, then the home block's. `copied` waits for `bunpin`. -/
inductive LoopStage where
  | start
  | one (a : Nat)
  | two (a b : Nat)
  | copied (a b : Nat)
  | ready (a b : Nat)
  | last (c : Nat)
deriving DecidableEq

inductive HeadStage where
  | start
  | one (a : Nat)
  | ready (a : Nat)
deriving DecidableEq

/-- Where a process inside `commit` stands. `loop false` is `write_log`, `loop true` is
`install_trans(0)`, `clear` is `log.lh.n = 0`, and `head true` the second `write_head`. -/
inductive CommitPc where
  | loop (inst : Bool) (tail : Nat) (st : LoopStage)
  | clear
  | head (erase : Bool) (st : HeadStage)
  | finished
deriving DecidableEq

inductive Pc where
  | idle
  | starting
  | inOp
  | committing (c : CommitPc)
deriving DecidableEq

/-- The part of `bread` or `brelse` a process is in, and the buffer it is about. -/
inductive Io where
  | none
  | acquiring (i : Nat)
  | filling (i : Nat)
  | releasing (i : Nat)
deriving DecidableEq

/-- `held` are the buffers the process has locked, `dirty` those it has changed since it
last called `log_write` on them, and `op` numbers its current operation. -/
structure Proc where
  pc : Pc
  io : Io
  held : List Nat
  dirty : List Nat
  op : Nat

/-- The contents operation `op` logged for a block. -/
structure Update where
  op : Nat
  block : Nat
  data : Block

/-- The kernel and its processes. `txn` and `history` are not kernel state: they record
what was logged since the last commit and what each commit made durable. -/
structure Sys (ι : Type) where
  k : Kernel
  proc : ι → Proc
  nextOp : Nat
  txn : List Update
  history : List (List Update)

instance (start b : Nat) : Decidable (InLog start b) := inferInstanceAs (Decidable (_ ∧ _))

def HomeBlock (start b : Nat) : Prop := ¬ InLog start b ∧ b < 2 ^ 32

instance (start b : Nat) : Decidable (HomeBlock start b) := inferInstanceAs (Decidable (_ ∧ _))

def CommitPc.wants (lg : Log) : CommitPc → Option Nat
  | .loop _ tail .start => some (lg.start + tail + 1)
  | .loop _ tail (.one _) => some (lg.lh.block tail)
  | .head _ .start => some lg.start
  | _ => none

def Pc.mayRead (lg : Log) (b : Nat) : Pc → Bool
  | .idle => true
  | .starting => false
  | .inOp => true
  | .committing c => c.wants lg == some b

def CommitPc.got (i : Nat) : CommitPc → CommitPc
  | .loop inst tail .start => .loop inst tail (.one i)
  | .loop inst tail (.one a) => .loop inst tail (.two a i)
  | .head erase .start => .head erase (.one i)
  | c => c

def Pc.got (i : Nat) : Pc → Pc
  | .committing c => .committing (c.got i)
  | pc => pc

def enterLoop (n : Int) (inst : Bool) (tail : Nat) : CommitPc :=
  if (tail : Int) < n then .loop inst tail .start
  else if inst then .clear else .head false .start

def enterCommit (n : Int) : CommitPc :=
  if n > 0 then enterLoop n false 0 else .finished

def CommitPc.releases (n : Int) : CommitPc → Option (Nat × CommitPc)
  | .loop false tail (.ready a b) => some (b, .loop false tail (.last a))
  | .loop true tail (.ready a b) => some (a, .loop true tail (.last b))
  | .loop inst tail (.last c) => some (c, enterLoop n inst (tail + 1))
  | .head false (.ready a) => some (a, enterLoop n true 0)
  | .head true (.ready a) => some (a, .finished)
  | _ => none

def copyBlock (dst src : Nat) : K PUnit := do
  let t ← get
  setData dst (t.buf src).data
  bwrite dst

def storeHead (i : Nat) : K PUnit := do
  let t ← get
  setData i (putHead t.log.lh (t.buf i).data)
  bwrite i

/-- What a process can do next, at the granularity of the kernel's locks. `modify`,
`logWrite` and `releasesleep` are its own choice, the other names follow the code. -/
inductive Act where
  | beginOp
  | bget (b : Nat)
  | acquiresleep
  | fill
  | modify (i : Nat) (x : Block)
  | logWrite (i : Nat)
  | releasesleep (i : Nat)
  | brelseRef
  | endOp
  | copy
  | bunpin
  | release
  | clear
  | endCommit

def returned {α : Type} (m : K α) (k : Kernel) : Option (α × Kernel) :=
  match m k with
  | .ok a t => some (a, t)
  | .error _ _ => none

variable {ι : Type} [DecidableEq ι]

def Sys.put (s : Sys ι) (p : ι) (k : Kernel) (pr : Proc) : Sys ι :=
  { s with k := k, proc := update s.proc p pr }

/-- One step of process `p`; `none` if it cannot take that step now. -/
def step (s : Sys ι) (p : ι) (a : Act) : Option (Sys ι) :=
  let pr := s.proc p
  match a with
  | .beginOp =>
    if pr.io = .none ∧ (pr.pc = .idle ∨ pr.pc = .starting) then
      (returned LogOps.beginOp s.k).map fun (admitted, k) =>
        if admitted then
          { s.put p k { pr with pc := .inOp, op := s.nextOp } with nextOp := s.nextOp + 1 }
        else s.put p k { pr with pc := .starting }
    else none
  | .bget b =>
    if pr.io = .none ∧ pr.pc.mayRead s.k.log b then
      (returned (bgetRef s.k.log.dev b) s.k).map fun (i, k) => s.put p k { pr with io := .acquiring i }
    else none
  | .acquiresleep =>
    match pr.io with
    | .acquiring i => (returned (acquiresleep i) s.k).map fun (_, k) =>
        s.put p k { pr with io := .filling i, held := i :: pr.held }
    | _ => none
  | .fill =>
    match pr.io with
    | .filling i => (returned (fill i) s.k).map fun (_, k) =>
        s.put p k { pr with io := .none, pc := pr.pc.got i }
    | _ => none
  | .modify i x =>
    if pr.io = .none ∧ pr.pc = .inOp ∧ i ∈ pr.held ∧ HomeBlock s.k.log.start (s.k.buf i).blockno then
      (returned (setData i x) s.k).map fun (_, k) => s.put p k { pr with dirty := i :: pr.dirty }
    else none
  | .logWrite i =>
    if pr.io = .none ∧ pr.pc = .inOp ∧ i ∈ pr.held ∧ HomeBlock s.k.log.start (s.k.buf i).blockno then
      (returned (LogOps.logWrite i) s.k).map fun (_, k) =>
        { s.put p k { pr with dirty := pr.dirty.filter (· ≠ i) } with
          txn := s.txn ++ [⟨pr.op, (s.k.buf i).blockno, (s.k.buf i).data⟩] }
    else none
  | .releasesleep i =>
    if pr.io = .none ∧ (pr.pc = .idle ∨ pr.pc = .inOp) ∧ i ∈ pr.held ∧ i ∉ pr.dirty then
      (returned (releasesleep i) s.k).map fun (_, k) =>
        s.put p k { pr with io := .releasing i, held := pr.held.erase i }
    else none
  | .brelseRef =>
    match pr.io with
    | .releasing i => (returned (brelseRef i) s.k).map fun (_, k) => s.put p k { pr with io := .none }
    | _ => none
  | .endOp =>
    if pr.io = .none ∧ pr.pc = .inOp ∧ pr.held = [] then
      (returned LogOps.endOp s.k).map fun (doCommit, k) =>
        if doCommit then s.put p k { pr with pc := .committing (enterCommit k.log.lh.n) }
        else s.put p k { pr with pc := .idle }
    else none
  | .copy =>
    match pr.io, pr.pc with
    | .none, .committing (.loop false tail (.two a b)) => (returned (copyBlock a b) s.k).map fun (_, k) =>
        s.put p k { pr with pc := .committing (.loop false tail (.ready a b)) }
    | .none, .committing (.loop true tail (.two a b)) => (returned (copyBlock b a) s.k).map fun (_, k) =>
        s.put p k { pr with pc := .committing (.loop true tail (.copied a b)) }
    | .none, .committing (.head false (.one a)) => (returned (storeHead a) s.k).map fun (_, k) =>
        { s.put p k { pr with pc := .committing (.head false (.ready a)) } with
          txn := [], history := s.history ++ [s.txn] }
    | .none, .committing (.head true (.one a)) => (returned (storeHead a) s.k).map fun (_, k) =>
        s.put p k { pr with pc := .committing (.head true (.ready a)) }
    | _, _ => none
  | .bunpin =>
    match pr.io, pr.pc with
    | .none, .committing (.loop true tail (.copied a b)) => (returned (bunpin b) s.k).map fun (_, k) =>
        s.put p k { pr with pc := .committing (.loop true tail (.ready a b)) }
    | _, _ => none
  | .release =>
    match pr.io, pr.pc with
    | .none, .committing c =>
      (c.releases s.k.log.lh.n).bind fun (i, c') =>
        (returned (releasesleep i) s.k).map fun (_, k) => s.put p k
          { pr with pc := .committing c', io := .releasing i, held := pr.held.erase i }
    | _, _ => none
  | .clear =>
    match pr.io, pr.pc with
    | .none, .committing .clear => (returned clearHead s.k).map fun (_, k) =>
        s.put p k { pr with pc := .committing (.head true .start) }
    | _, _ => none
  | .endCommit =>
    match pr.io, pr.pc with
    | .none, .committing .finished => (returned LogOps.endCommit s.k).map fun (_, k) =>
        s.put p k { pr with pc := .idle }
    | _, _ => none

end Xv6.LogSystem
