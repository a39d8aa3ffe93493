import Xv6.Console
import Xv6.FailedCalls
import Xv6.Pipe
import Xv6.Vm

namespace Xv6.FileRead

open Xv6.Lib Xv6.Blocks
open Xv6.Inodes (bsize ndev)
open Xv6.Vm (maxva)
open Xv6.Pipe (pipeSize)
open Xv6.Console (Cons readRun)

/-- The memory of the caller: the pages that `copyout` can write to, and the bytes written so far with their
addresses. -/
structure User where
  page : Nat → Bool
  out : List (Nat × UInt8)

def User.put (u : User) (a : Nat) (bytes : List UInt8) : User :=
  { u with out := u.out ++ (List.range' a bytes.length).zip bytes }

/-- The loop of `copyout`. Each round copies at least one byte, so as many rounds are enough. -/
def copyoutLoop : Nat → User → Nat → List UInt8 → User × Bool
  | 0, u, _, _ => (u, true)
  | rounds + 1, u, dstva, src =>
    if src = [] then (u, true)
    else
      let va0 := pgRoundDown dstva
      if maxva ≤ va0 ∨ u.page va0 = false then (u, false)
      else
        let n := min (pgsize - (dstva - va0)) src.length
        copyoutLoop rounds (u.put dstva (src.take n)) (va0 + pgsize) (src.drop n)

def copyout (u : User) (dstva : Nat) (src : List UInt8) : User × Bool :=
  copyoutLoop src.length u dstva src

/-- The file system, the memory of the caller, the pipe or console that the file stands for, and the
offset of the file. -/
structure Sys where
  vol : Vol
  user : User
  pipe : Pipe.Data
  cons : Cons
  off : UInt32

abbrev R := EStateM String Sys

def liftVol {α : Type} (m : V α) : R α := zoom Sys.vol (fun v s => { s with vol := v }) m

def readLoopTo (i addr n : Nat) : Nat → Nat → Nat → R Int
  | 0, _, tot => return tot
  | rounds + 1, off, tot =>
    if tot < n then do
      let a ← liftVol (bmap i (off / bsize))
      if a = 0 then
        return tot
      let s ← get
      let m := min (n - tot) (bsize - off % bsize)
      let (u, copied) := copyout s.user (addr + tot)
        ((List.range m).map fun j => s.vol.blk a (off % bsize + j))
      set { s with user := u }
      if copied then
        readLoopTo i addr n rounds (off + m) (tot + m)
      else
        return -1
    else
      return tot

def readiTo (i addr : Nat) (off n : UInt32) : R Int := do
  let s ← get
  let size := (s.vol.ip i).size
  if size < off.toNat ∨ off + n < off then
    return 0
  let n := if size < (off + n).toNat then size - off.toNat else n.toNat
  readLoopTo i addr n n off.toNat 0

/-- What a process finds that looks whether to sleep: whether it was killed, and, if it sleeps, the pipe
and the console when it has the lock again. -/
structure Wake where
  killed : Bool
  pipe : Pipe.Data
  cons : Cons

def pipeWait : List Wake → R Bool
  | [] => do
    let s ← get
    if s.pipe.nread = s.pipe.nwrite ∧ s.pipe.writeopen = true then
      throw "asleep"
    else
      return false
  | wake :: wakes => do
    let s ← get
    if s.pipe.nread = s.pipe.nwrite ∧ s.pipe.writeopen = true then
      if wake.killed then
        return true
      else do
        set { s with pipe := wake.pipe }
        pipeWait wakes
    else
      return false

def pipeCopy (addr : Nat) (n : Int) : Nat → Nat → R Int
  | 0, i => return i
  | rounds + 1, i => do
    let s ← get
    if i < n then
      if s.pipe.nread = s.pipe.nwrite then
        return i
      else do
        let ch := s.pipe.data (s.pipe.nread % pipeSize)
        let (u, copied) := copyout s.user (addr + i) [ch]
        set { s with pipe := { s.pipe with nread := (s.pipe.nread + 1) % 2 ^ 32 }, user := u }
        if copied then
          pipeCopy addr n rounds (i + 1)
        else
          return i
    else
      return i

def piperead (addr : Nat) (n : Int) (wakes : List Wake) : R Int := do
  if ← pipeWait wakes then
    return -1
  else
    pipeCopy addr n (n.toNat + 1) 0

/-- `consoleread` of `target` characters while it holds the lock, after `got` were copied; true if it
goes to sleep. -/
def consoleTurn (addr target : Nat) (got : List UInt8) : R (List UInt8 × Bool) := do
  let s ← get
  let (cons, got', asleep) := readRun target (fun k => (copyout s.user (addr + k) [0]).2)
    (target - got.length) s.cons got
  set { s with cons := cons, user := s.user.put (addr + got.length) (got'.drop got.length) }
  return (got', asleep)

def consoleLoop (addr target : Nat) : List Wake → List UInt8 → R Int
  | [], got => do
    let (got, asleep) ← consoleTurn addr target got
    if asleep then
      throw "asleep"
    else
      return got.length
  | wake :: wakes, got => do
    let (got, asleep) ← consoleTurn addr target got
    if asleep then
      if wake.killed then
        return -1
      else do
        modify fun s => { s with cons := wake.cons }
        consoleLoop addr target wakes got
    else
      return got.length

def consoleread (addr : Nat) (n : Int) (wakes : List Wake) : R Int := consoleLoop addr n.toNat wakes []

def consoleMajor : Int := 1

/-- `wakes` says what happens while the call sleeps; a call that sleeps more often does not return. -/
def fileread (f : Files.File) (addr : Nat) (n : Int32) (wakes : List Wake) : R Int := do
  if f.readable = false then
    return -1
  match f.type with
  | .pipe => piperead addr n.toInt wakes
  | .device =>
    if f.major < 0 ∨ ndev ≤ f.major ∨ f.major ≠ consoleMajor then
      return -1
    else
      consoleread addr n.toInt wakes
  | .inode => do
    liftVol (ilock f.ip)
    let s ← get
    let r ← readiTo f.ip addr s.off n.toUInt32
    if 0 < r then
      modify fun s => { s with off := s.off + .ofNat r.toNat }
    return r
  | .none => throw "fileread"

end Xv6.FileRead
