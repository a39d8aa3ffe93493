import Xv6.FileCalls
import Mathlib.Data.Fintype.Prod

namespace Xv6.Files

open Xv6.Inodes (nfile nofile ndev oWronly oRdwr FileType)
open Function

/-! The file table, the descriptor tables and the pipes' open ends. The lookup is an argument of `sys_open`, and
`iput` does nothing. -/

inductive FdType
  | none
  | pipe
  | inode
  | device
  deriving DecidableEq

structure File where
  type : FdType
  ref : Nat
  readable : Bool
  writable : Bool
  pipe : Nat
  ip : Nat
  major : Int
  deriving DecidableEq

structure Pipe where
  readopen : Bool
  writeopen : Bool
  nread : Nat
  nwrite : Nat
  deriving DecidableEq

def Pipe.close (pi : Pipe) (writable : Bool) : Pipe :=
  if writable then { pi with writeopen := false } else { pi with readopen := false }

/-- `pipe` gives the pipe in a page that was allocated for one. `allocs` and `frees` are not stored:
they count how often a page became a pipe's and how often it was freed. -/
structure State (ι : Type) where
  file : Fin nfile → File
  ofile : ι × Fin nofile → Option (Fin nfile)
  alive : ι → Bool
  initproc : ι
  freelist : List Nat
  pipe : Nat → Option Pipe
  allocs : Nat → Nat
  frees : Nat → Nat

variable {ι : Type} [DecidableEq ι]

abbrev M (ι : Type) := EStateM String (State ι)

def kalloc : M ι (Option Nat) := do
  let s ← get
  match s.freelist with
  | [] => return none
  | pg :: l => do
    set { s with freelist := l }
    return some pg

def kfree (pg : Nat) : M ι Unit :=
  modify fun s => { s with
    freelist := pg :: s.freelist
    pipe := update s.pipe pg none
    frees := update s.frees pg (s.frees pg + 1) }

def setFile (f : Fin nfile) (g : File → File) : M ι Unit :=
  modify fun s => { s with file := update s.file f (g (s.file f)) }

def filealloc : M ι (Option (Fin nfile)) := do
  let s ← get
  match (List.finRange nfile).find? fun f => (s.file f).ref = 0 with
  | none => return none
  | some f => do
    set { s with file := update s.file f { s.file f with ref := 1 } }
    return some f

def filedup (f : Fin nfile) : M ι Unit := do
  let s ← get
  if (s.file f).ref < 1 then
    throw "filedup"
  else
    set { s with file := update s.file f { s.file f with ref := (s.file f).ref + 1 } }

/-- A pipe in a page that is not a pipe's any more cannot be closed. -/
def pipeclose (pg : Nat) (writable : Bool) : M ι Unit := do
  let s ← get
  match s.pipe pg with
  | none => throw "pipe page not allocated"
  | some pi => do
    set { s with pipe := update s.pipe pg (some (pi.close writable)) }
    if (pi.close writable).readopen = false ∧ (pi.close writable).writeopen = false then
      kfree pg

def fileclose (f : Fin nfile) : M ι Unit := do
  let s ← get
  let x := s.file f
  if x.ref < 1 then
    throw "fileclose"
  else if 0 < x.ref - 1 then
    set { s with file := update s.file f { x with ref := x.ref - 1 } }
  else do
    set { s with file := update s.file f { x with ref := 0, type := .none } }
    if x.type = .pipe then
      pipeclose x.pipe x.writable

def pipeBad (pi : Option Nat) (f0 f1 : Option (Fin nfile)) : M ι (Option (Fin nfile × Fin nfile)) := do
  pi.forM kfree
  f0.forM fileclose
  f1.forM fileclose
  return none

def pipealloc : M ι (Option (Fin nfile × Fin nfile)) := do
  match ← filealloc with
  | none => pipeBad none none none
  | some f0 =>
    match ← filealloc with
    | none => pipeBad none (some f0) none
    | some f1 =>
      match ← kalloc with
      | none => pipeBad none (some f0) (some f1)
      | some pg => do
        modify fun s => { s with
          pipe := update s.pipe pg (some ⟨true, true, 0, 0⟩)
          allocs := update s.allocs pg (s.allocs pg + 1) }
        setFile f0 fun x => { x with type := .pipe, readable := true, writable := false, pipe := pg }
        setFile f1 fun x => { x with type := .pipe, readable := false, writable := true, pipe := pg }
        return some (f0, f1)

def setFd (p : ι) (fd : Fin nofile) (f : Option (Fin nfile)) : M ι Unit :=
  modify fun s => { s with ofile := update s.ofile (p, fd) f }

def argfd (p : ι) (fd : Int) : M ι (Option (Fin nofile × Fin nfile)) := do
  let s ← get
  if h : 0 ≤ fd ∧ fd < nofile then
    match s.ofile (p, ⟨fd.toNat, by omega⟩) with
    | none => return none
    | some f => return some (⟨fd.toNat, by omega⟩, f)
  else return none

def fdalloc (p : ι) (f : Fin nfile) : M ι (Option (Fin nofile)) := do
  let s ← get
  match (List.finRange nofile).find? fun fd => s.ofile (p, fd) = none with
  | none => return none
  | some fd => do
    setFd p fd (some f)
    return some fd

def sysDup (p : ι) (fd : Int) : M ι (Option (Fin nofile)) := do
  match ← argfd p fd with
  | none => return none
  | some (_, f) =>
    match ← fdalloc p f with
    | none => return none
    | some new => do
      filedup f
      return some new

def sysClose (p : ι) (fd : Int) : M ι Bool := do
  match ← argfd p fd with
  | none => return false
  | some (fd, f) => do
    setFd p fd none
    fileclose f
    return true

structure Found where
  inum : Nat
  type : FileType
  major : Int

def sysOpen (p : ι) (found : Option Found) (omode : Nat) : M ι (Option (Fin nofile)) := do
  match found with
  | none => return none
  | some ip =>
    if ip.type = .device ∧ (ip.major < 0 ∨ ndev ≤ ip.major) then
      return none
    else
      match ← filealloc with
      | none => return none
      | some f =>
        match ← fdalloc p f with
        | none => do
          fileclose f
          return none
        | some fd => do
          setFile f fun x => { x with
            type := if ip.type = .device then .device else .inode
            major := if ip.type = .device then ip.major else x.major
            ip := ip.inum
            readable := omode &&& oWronly = 0
            writable := omode &&& oWronly ≠ 0 ∨ omode &&& oRdwr ≠ 0 }
          return some fd

def pipeUndo (p : ι) (rf wf : Fin nfile) (fd0 fd1 : Option (Fin nofile)) : M ι Bool := do
  fd0.forM fun fd => setFd p fd none
  fd1.forM fun fd => setFd p fd none
  fileclose rf
  fileclose wf
  return false

/-- `copied` tells whether both copies of a descriptor to the user's array succeed. -/
def sysPipe (p : ι) (copied : Bool) : M ι Bool := do
  match ← pipealloc with
  | none => return false
  | some (rf, wf) =>
    match ← fdalloc p rf with
    | none => pipeUndo p rf wf none none
    | some fd0 =>
      match ← fdalloc p wf with
      | none => pipeUndo p rf wf (some fd0) none
      | some fd1 => if copied then return true else pipeUndo p rf wf (some fd0) (some fd1)

def forkFile (p np : ι) (fd : Fin nofile) : M ι Unit := do
  let s ← get
  match s.ofile (p, fd) with
  | none => pure ()
  | some f => do
    filedup f
    setFd np fd (some f)

/-- `np` is the slot `allocproc` finds, and `copied` tells whether `uvmcopy` succeeds. -/
def kfork (p : ι) (np : Option ι) (copied : Bool) : M ι Bool := do
  match np with
  | none => return false
  | some np =>
    if copied then do
      (List.finRange nofile).forM (forkFile p np)
      modify fun s => { s with alive := update s.alive np true }
      return true
    else return false

def exitFile (p : ι) (fd : Fin nofile) : M ι Unit := do
  let s ← get
  match s.ofile (p, fd) with
  | none => pure ()
  | some f => do
    fileclose f
    setFd p fd none

def kexit (p : ι) : M ι Unit := do
  let s ← get
  if p = s.initproc then
    throw "init exiting"
  else do
    (List.finRange nofile).forM (exitFile p)
    modify fun s => { s with alive := update s.alive p false }

inductive Call (ι : Type)
  | «open» (found : Option Found) (omode : Nat)
  | dup (fd : Int)
  | pipe (copied : Bool)
  | close (fd : Int)
  | fork (np : Option ι) (copied : Bool)
  | exit

def void {α : Type} (m : M ι α) : M ι Unit := m >>= fun _ => pure ()

def call (p : ι) : Call ι → M ι Unit
  | .open found omode => void (sysOpen p found omode)
  | .dup fd => void (sysDup p fd)
  | .pipe copied => void (sysPipe p copied)
  | .close fd => void (sysClose p fd)
  | .fork np copied => void (kfork p np copied)
  | .exit => kexit p

/-- A process makes a system call, or the rest of the kernel takes pages from the free list and
gives others back. -/
inductive Act (ι : Type)
  | call (p : ι) (c : Call ι)
  | pages (l : List Nat)

def Allowed (s : State ι) : Act ι → Prop
  | .call p (.fork (some np) _) => s.alive p = true ∧ s.alive np = false
  | .call p _ => s.alive p = true
  | .pages l => l.Nodup ∧ ∀ pg ∈ l, s.pipe pg = none

instance (s : State ι) (a : Act ι) : Decidable (Allowed s a) :=
  match a with
  | .call p (.fork (some np) _) => inferInstanceAs (Decidable (s.alive p = true ∧ s.alive np = false))
  | .call p (.fork none _) => inferInstanceAs (Decidable (s.alive p = true))
  | .call p (.open _ _) => inferInstanceAs (Decidable (s.alive p = true))
  | .call p (.dup _) => inferInstanceAs (Decidable (s.alive p = true))
  | .call p (.pipe _) => inferInstanceAs (Decidable (s.alive p = true))
  | .call p (.close _) => inferInstanceAs (Decidable (s.alive p = true))
  | .call p .exit => inferInstanceAs (Decidable (s.alive p = true))
  | .pages l => inferInstanceAs (Decidable (l.Nodup ∧ ∀ pg ∈ l, s.pipe pg = none))

def step (s : State ι) : Act ι → Option (State ι)
  | .call p c =>
    match call p c s with
    | .ok _ t => some t
    | .error _ _ => none
  | .pages l => some { s with freelist := l }

end Xv6.Files
