import Xv6.BufferCache
import Xv6.Lib.Circular
import Xv6.Lib.Transition

namespace Xv6.BufferList

open Xv6.Lib Xv6.BufferCache Function

instance : NeZero nbuf := ⟨by decide⟩

/-- The address of a buffer, or of `bcache.head`. -/
abbrev Node := Option (Fin nbuf)

/-- `bcache`, with the links kept apart from the other fields. -/
structure Cache where
  buf : Fin nbuf → Buf
  next : Node → Node
  prev : Node → Node

namespace Cache

def setNext (c : Cache) (a b : Node) : Cache := { c with next := update c.next a b }

def setPrev (c : Cache) (a b : Node) : Cache := { c with prev := update c.prev a b }

def setBuf (c : Cache) (i : Fin nbuf) (b : Buf) : Cache := { c with buf := update c.buf i b }

def insert (c : Cache) (b : Node) : Cache :=
  let c := c.setNext b (c.next none)
  let c := c.setPrev b none
  let c := c.setPrev (c.next none) b
  c.setNext none b

def binit (c : Cache) : Cache :=
  (List.finRange nbuf).foldl (fun c i => c.insert (some i)) ((c.setPrev none none).setNext none none)

def holds (c : Cache) (dev blockno : Nat) : Node → Bool
  | some i => (c.buf i).dev = dev ∧ (c.buf i).blockno = blockno
  | none => false

def unused (c : Cache) : Node → Bool
  | some i => (c.buf i).refcnt = 0
  | none => false

end Cache

/-- `hang` is a loop that goes on for more rounds than there are nodes. -/
inductive Stop where
  | panic (msg : String)
  | hang
  deriving DecidableEq

namespace Cache

def incr (r : Nat) : Nat := (r + 1) % 2 ^ 32

def bget (c : Cache) (dev blockno : Nat) : Except Stop (Fin nbuf × Cache) :=
  match seek c.next none (c.holds dev blockno) (nbuf + 1) (c.next none) with
  | none => .error .hang
  | some (some i) => .ok (i, c.setBuf i { c.buf i with refcnt := incr (c.buf i).refcnt })
  | some none =>
    match seek c.prev none c.unused (nbuf + 1) (c.prev none) with
    | none => .error .hang
    | some (some i) => .ok (i, c.setBuf i { c.buf i with
        dev := dev
        blockno := blockno
        valid := false
        refcnt := 1 })
    | some none => .error (.panic "bget: no buffers")

def brelse (c : Cache) (i : Fin nbuf) : Cache :=
  let b : Node := some i
  let c := c.setBuf i { c.buf i with refcnt := decr (c.buf i).refcnt }
  if (c.buf i).refcnt = 0 then
    let c := c.setPrev (c.next b) (c.prev b)
    let c := c.setNext (c.prev b) (c.next b)
    c.insert b
  else c

def bpin (c : Cache) (i : Fin nbuf) : Cache :=
  c.setBuf i { c.buf i with refcnt := incr (c.buf i).refcnt }

def bunpin (c : Cache) (i : Fin nbuf) : Cache :=
  c.setBuf i { c.buf i with refcnt := decr (c.buf i).refcnt }

end Cache

/-- How far a process is with a buffer: in `acquiresleep` at the end of `bget`, with the buffer
locked, or in `brelse` after `releasesleep`. -/
inductive Stage where
  | waiting
  | held
  | releasing
  deriving DecidableEq

structure Ref (ι : Type) where
  proc : ι
  buf : Fin nbuf
  stage : Stage
  deriving DecidableEq

/-- `pins` counts the pins of each buffer, and `released` is the time at which the last `brelse` took its count
to zero. -/
structure Sys (ι : Type) where
  cache : Cache
  refs : List (Ref ι)
  pins : Fin nbuf → Nat
  clock : Nat
  released : Fin nbuf → Nat
  stopped : Option Stop

inductive Op where
  | bget (dev blockno : Nat)
  | acquiresleep (i : Fin nbuf)
  | fill (i : Fin nbuf)
  | releasesleep (i : Fin nbuf)
  | brelse (i : Fin nbuf)
  | bpin (i : Fin nbuf)
  | bunpin (i : Fin nbuf)
  deriving DecidableEq

variable {ι : Type} [DecidableEq ι]

namespace Sys

def stop (s : Sys ι) (e : Stop) : Sys ι := { s with stopped := some e }

def setLocked (s : Sys ι) (i : Fin nbuf) (locked : Bool) : Sys ι :=
  { s with cache := s.cache.setBuf i { s.cache.buf i with locked := locked } }

def move (s : Sys ι) (p : ι) (i : Fin nbuf) (st st' : Stage) : Sys ι :=
  { s with refs := ⟨p, i, st'⟩ :: s.refs.erase ⟨p, i, st⟩ }

def free (s : Sys ι) (p : ι) : Bool := s.refs.all fun r => r.proc ≠ p ∨ r.stage = .held

def brelse (s : Sys ι) (p : ι) (i : Fin nbuf) : Sys ι :=
  { s with
    cache := s.cache.brelse i
    refs := s.refs.erase ⟨p, i, .releasing⟩
    clock := s.clock + 1
    released :=
      if ((s.cache.brelse i).buf i).refcnt = 0 then update s.released i (s.clock + 1)
      else s.released }

end Sys

/-- `bread` is `bget`, `acquiresleep` and `fill`, where `fill` stands for the disk's part, and `brelse` is
`releasesleep` and `brelse`. -/
def opStep (s : Sys ι) (p : ι) : Op → Option (Sys ι)
  | .bget dev blockno =>
    if s.free p then
      match s.cache.bget dev blockno with
      | .ok (i, c) => some { s with
          cache := c
          refs := ⟨p, i, .waiting⟩ :: s.refs }
      | .error e => some (s.stop e)
    else none
  | .acquiresleep i =>
    if ⟨p, i, .waiting⟩ ∈ s.refs ∧ (s.cache.buf i).locked = false then
      some ((s.setLocked i true).move p i .waiting .held)
    else none
  | .fill i =>
    if s.free p ∧ ⟨p, i, .held⟩ ∈ s.refs then
      some { s with cache := s.cache.setBuf i { s.cache.buf i with valid := true } }
    else none
  | .releasesleep i =>
    if s.free p then
      if ⟨p, i, .held⟩ ∈ s.refs then some ((s.setLocked i false).move p i .held .releasing)
      else some (s.stop (.panic "brelse"))
    else none
  | .brelse i => if ⟨p, i, .releasing⟩ ∈ s.refs then some (s.brelse p i) else none
  | .bpin i =>
    if s.free p then
      some { s with
        cache := s.cache.bpin i
        pins := update s.pins i (s.pins i + 1) }
    else none
  | .bunpin i =>
    if s.free p then
      some { s with
        cache := s.cache.bunpin i
        pins := update s.pins i (s.pins i - 1) }
    else none

def step (s : Sys ι) (a : ι × Op) : Option (Sys ι) :=
  if s.stopped.isSome then none else opStep s a.1 a.2

/-- A buffer is unpinned by a process that holds it, and no more often than it has been pinned. -/
def Paired (s : Sys ι) (a : ι × Op) : Prop :=
  match a.2 with
  | .bunpin i => ⟨a.1, i, .held⟩ ∈ s.refs ∧ 0 < s.pins i
  | _ => True

instance (s : Sys ι) (a : ι × Op) : Decidable (Paired s a) := by
  unfold Paired
  split <;> infer_instance

def zeroed : Cache where
  buf _ :=
    { valid := false
      dev := 0
      blockno := 0
      locked := false
      refcnt := 0
      data := fun _ => 0 }
  next _ := none
  prev _ := none

def init : Sys ι where
  cache := zeroed.binit
  refs := []
  pins := fun _ => 0
  clock := 0
  released := fun _ => 0
  stopped := none

/-- The references that processes and the log have to a buffer. -/
def Sys.references (s : Sys ι) (i : Fin nbuf) : Nat := s.refs.countP (·.buf = i) + s.pins i

end Xv6.BufferList
