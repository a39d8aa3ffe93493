import Xv6.Param
import Xv6.Lib.Ensures
import Mathlib.Logic.Function.Basic
import Mathlib.Data.List.Basic
import Mathlib.Tactic.Ring

namespace Xv6.BufferCache

open Function

structure Buf where
  valid : Bool
  dev : Nat
  blockno : Nat
  locked : Bool
  refcnt : Nat
  data : Block

structure LogHeader where
  n : Int
  block : Nat → Nat

structure Log where
  start : Nat
  outstanding : Int
  committing : Bool
  dev : Nat
  lh : LogHeader

/-- The disk, the buffer cache and the log. `lru` lists the buffers from `head.next`
to `head.prev`; `power` is the number of block writes the disk still completes. -/
structure Kernel where
  disk : Nat → Block
  power : Nat
  buf : Nat → Buf
  lru : List Nat
  log : Log

/-- Why a kernel function did not return: a panic, a sleep nobody ends, or the power
failing before a block write. -/
inductive Stop where
  | panic (msg : String)
  | sleep
  | crash

abbrev K := EStateM Stop Kernel

def setBuf (i : Nat) (b : Buf) : K PUnit :=
  modify fun s => { s with buf := update s.buf i b }

def acquiresleep (i : Nat) : K PUnit := do
  let s ← get
  if (s.buf i).locked then throw .sleep else setBuf i { s.buf i with locked := true }

/-- The part of `bget` under `bcache.lock`: find or recycle a buffer and count a
reference to it. Each process has few references, so here `refcnt++` is not taken modulo `2 ^ 32`;
`BufferList` has the wrap and shows where the two agree. -/
def bgetRef (dev blockno : Nat) : K Nat := do
  let s ← get
  match s.lru.find? (fun i => (s.buf i).dev == dev && (s.buf i).blockno == blockno) with
  | some i =>
    setBuf i { s.buf i with refcnt := (s.buf i).refcnt + 1 }
    return i
  | none =>
    match s.lru.reverse.find? (fun i => (s.buf i).refcnt == 0) with
    | some i =>
      setBuf i { s.buf i with dev := dev, blockno := blockno, valid := false, refcnt := 1 }
      return i
    | none => throw (.panic "bget: no buffers")

def bget (dev blockno : Nat) : K Nat := do
  let i ← bgetRef dev blockno
  acquiresleep i
  return i

/-- One block transfer. A write is atomic, and happens only while there is power. -/
def virtioDiskRw (i : Nat) (write : Bool) : K PUnit := do
  let s ← get
  if write then
    if s.power = 0 then throw .crash
    else set { s with
      disk := update s.disk (s.buf i).blockno (s.buf i).data, power := s.power - 1 }
  else
    setBuf i { s.buf i with data := s.disk (s.buf i).blockno }

def fill (i : Nat) : K PUnit := do
  let s ← get
  if (s.buf i).valid then pure ⟨⟩
  else
    virtioDiskRw i false
    modify fun s => { s with buf := update s.buf i { s.buf i with valid := true } }

def bread (dev blockno : Nat) : K Nat := do
  let i ← bget dev blockno
  fill i
  return i

def bwrite (i : Nat) : K PUnit := do
  let s ← get
  if (s.buf i).locked then virtioDiskRw i true else throw (.panic "bwrite")

/-- `refcnt--` on an unsigned counter. -/
def decr (r : Nat) : Nat := if r = 0 then 2 ^ 32 - 1 else r - 1

def releasesleep (i : Nat) : K PUnit :=
  modify fun s => { s with buf := update s.buf i { s.buf i with locked := false } }

/-- The part of `brelse` under `bcache.lock`: drop the reference, and move a buffer
nobody refers to to the front of the list. -/
def brelseRef (i : Nat) : K PUnit := do
  let s ← get
  let r := decr (s.buf i).refcnt
  setBuf i { s.buf i with refcnt := r }
  if r = 0 then modify fun s => { s with lru := i :: s.lru.erase i }

def brelse (i : Nat) : K PUnit := do
  let s ← get
  if (s.buf i).locked then
    releasesleep i
    brelseRef i
  else throw (.panic "brelse")

def bpin (i : Nat) : K PUnit := do
  let s ← get
  setBuf i { s.buf i with refcnt := (s.buf i).refcnt + 1 }

def bunpin (i : Nat) : K PUnit := do
  let s ← get
  setBuf i { s.buf i with refcnt := decr (s.buf i).refcnt }

end Xv6.BufferCache
