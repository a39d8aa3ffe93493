import Xv6.Lib.Transition
import Mathlib.Logic.Function.Basic
import Mathlib.Data.List.Basic
import Mathlib.Tactic.Ring

namespace Xv6.Virtio

open Xv6.Lib Function

def num : Nat := 8
def fNext : Nat := 1
def fWrite : Nat := 2
def blkTIn : Nat := 0
def blkTOut : Nat := 1
def bsize : Nat := 1024

/-- What a descriptor's address points to. -/
inductive Addr (β : Type) where
  | null
  | op (i : Nat)
  | data (b : β)
  | status (i : Nat)
  deriving DecidableEq

structure Desc (β : Type) where
  addr : Addr β
  len : Nat
  flags : Nat
  next : Nat

structure BlkReq where
  type : Nat
  reserved : Nat
  sector : Nat

structure Info (β : Type) where
  b : Option β
  status : Nat

/-- `struct disk` with the three queue pages. `availIdx`, `usedRingIdx` (`used->idx`) and `usedIdx`
are 16-bit counters. -/
structure Disk (β : Type) where
  free : Nat → Bool
  desc : Nat → Desc β
  availRing : Nat → Nat
  availIdx : Nat
  usedRing : Nat → Nat
  usedRingIdx : Nat
  usedIdx : Nat
  info : Nat → Info β
  ops : Nat → BlkReq

/-- How far the device has read the avail ring, the chains it works on, those it has served, and the one whose
entry it has not yet published. -/
structure Device where
  idx : Nat
  taken : List Nat
  served : List Nat
  ringed : Option Nat

structure Idx where
  i0 : Nat
  i1 : Nat
  i2 : Nat
  deriving DecidableEq

/-- Where a process is in `virtio_disk_rw`. It holds `vdisk_lock` except when `idle` and in the two
sleeps, `wantDesc` on `&disk.free[0]` and `sleeping` on its buffer. -/
inductive Pc (β : Type) where
  | idle
  | allocating (b : β) (write : Bool)
  | wantDesc (b : β) (write : Bool)
  | formatting (b : β) (write : Bool) (i : Idx)
  | ringing (b : β) (write : Bool) (i : Idx)
  | counting (b : β) (write : Bool) (i : Idx)
  | waiting (b : β) (write : Bool) (i : Idx)
  | sleeping (b : β) (write : Bool) (i : Idx)
  | freeing (b : β) (i : Idx) (j : Nat)
  | leaving (b : β)
  deriving DecidableEq

inductive Owner (ι : Type) where
  | proc (p : ι)
  | intr
  deriving DecidableEq

/-- What happens to a buffer: a request is made available, the device completes it, `b->disk` is
cleared, `virtio_disk_rw` returns. -/
inductive Event (β : Type) where
  | requested (b : β) (write : Bool) (sector : Nat)
  | completed (b : β) (write : Bool) (sector : Nat)
  | cleared (b : β)
  | returned (b : β)
  deriving DecidableEq

structure Sys (ι β : Type) where
  disk : Disk β
  dev : Device
  busy : β → Bool
  blockno : β → Nat
  lock : Option (Owner ι)
  pc : ι → Pc β
  events : List (Event β)
  panicked : Option String

section Driver

variable {β : Type}

def allocDesc (d : Disk β) : Option (Nat × Disk β) :=
  match (List.range num).find? d.free with
  | some i => some (i, { d with free := update d.free i false })
  | none => none

def freeDesc (i : Nat) (d : Disk β) : Except String (Disk β) :=
  if i ≥ num then .error "free_desc 1"
  else if d.free i then .error "free_desc 2"
  else .ok { d with
    desc := update d.desc i ⟨.null, 0, 0, 0⟩
    free := update d.free i true }

/-- The loop over the three entries of `idx`, with the descriptors given back when one is missing. -/
def alloc3Desc (d : Disk β) : Except String (Option Idx × Disk β) :=
  match allocDesc d with
  | none => .ok (none, d)
  | some (i0, d0) =>
    match allocDesc d0 with
    | none => do
      let d ← freeDesc i0 d0
      return (none, d)
    | some (i1, d1) =>
      match allocDesc d1 with
      | none => do
        let d ← freeDesc i0 d1
        let d ← freeDesc i1 d
        return (none, d)
      | some (i2, d2) => .ok (some ⟨i0, i1, i2⟩, d2)

/-- `b->blockno * (BSIZE / 512)` in 32 bits. -/
def sector (blockno : Nat) : Nat := blockno * (bsize / 512) % 2 ^ 32

/-- Fill in the three descriptors, the request and the record for `virtio_disk_intr`. -/
def format (b : β) (write : Bool) (blockno : Nat) (i : Idx) (d : Disk β) : Disk β :=
  { d with
    ops := update d.ops i.i0 ⟨if write then blkTOut else blkTIn, 0, sector blockno⟩
    desc := update (update (update d.desc
      i.i0 ⟨.op i.i0, 16, fNext, i.i1⟩)
      i.i1 ⟨.data b, bsize, (if write then 0 else fWrite) ||| fNext, i.i2⟩)
      i.i2 ⟨.status i.i0, 1, fWrite, 0⟩
    info := update d.info i.i0 ⟨some b, 0xff⟩ }

end Driver

variable {ι β : Type} [DecidableEq ι] [DecidableEq β]

def rwStep (s : Sys ι β) (p : ι) : Option (Sys ι β) :=
  match s.pc p with
  | .idle => none
  | .allocating b write =>
    match alloc3Desc s.disk with
    | .error e => some { s with panicked := some e }
    | .ok (none, d) =>
      some { s with disk := d, pc := update s.pc p (.wantDesc b write), lock := none }
    | .ok (some i, d) => some { s with disk := d, pc := update s.pc p (.formatting b write i) }
  | .wantDesc b write =>
    if s.lock = none then
      some { s with pc := update s.pc p (.allocating b write), lock := some (.proc p) }
    else none
  | .formatting b write i =>
    some { s with
      disk := format b write (s.blockno b) i s.disk
      busy := update s.busy b true
      pc := update s.pc p (.ringing b write i) }
  | .ringing b write i =>
    some { s with
      disk := { s.disk with
        availRing := update s.disk.availRing (s.disk.availIdx % num) i.i0 }
      pc := update s.pc p (.counting b write i) }
  | .counting b write i =>
    some { s with
      disk := { s.disk with availIdx := (s.disk.availIdx + 1) % 2 ^ 16 }
      pc := update s.pc p (.waiting b write i)
      events := .requested b write (sector (s.blockno b)) :: s.events }
  | .waiting b write i =>
    if s.busy b then
      some { s with pc := update s.pc p (.sleeping b write i), lock := none }
    else
      some { s with
        disk := { s.disk with
          info := update s.disk.info i.i0 { s.disk.info i.i0 with b := none } }
        pc := update s.pc p (.freeing b i i.i0) }
  | .sleeping b write i =>
    if s.lock = none then
      some { s with pc := update s.pc p (.waiting b write i), lock := some (.proc p) }
    else none
  | .freeing b i j =>
    -- one iteration of `free_chain`
    let d := s.disk.desc j
    match freeDesc j s.disk with
    | .error e => some { s with panicked := some e }
    | .ok disk =>
      if d.flags &&& fNext ≠ 0 then
        some { s with disk := disk, pc := update s.pc p (.freeing b i d.next) }
      else some { s with disk := disk, pc := update s.pc p (.leaving b) }
  | .leaving b =>
    some { s with
      pc := update s.pc p .idle
      lock := none
      events := .returned b :: s.events }

/-- One test of the loop of `virtio_disk_intr`, with the iteration that follows it or the release of
the lock. -/
def intrStep (s : Sys ι β) : Sys ι β :=
  if s.disk.usedIdx ≠ s.disk.usedRingIdx then
    let id := s.disk.usedRing (s.disk.usedIdx % num)
    if (s.disk.info id).status ≠ 0 then { s with panicked := some "virtio_disk_intr status" }
    else
      match (s.disk.info id).b with
      | none => { s with panicked := some "kerneltrap" }
      | some b => { s with
          busy := update s.busy b false
          disk := { s.disk with usedIdx := (s.disk.usedIdx + 1) % 2 ^ 16 }
          events := .cleared b :: s.events }
  else { s with lock := none }

/-- The device serves the chain at `h`, as its descriptors tell it to. -/
def serve (s : Sys ι β) (h : Nat) : Sys ι β :=
  let d0 := s.disk.desc h
  let d1 := s.disk.desc d0.next
  let d2 := s.disk.desc d1.next
  match d0.addr, d1.addr, d2.addr with
  | .op k, .data b, .status j => { s with
      disk := { s.disk with info := update s.disk.info j { s.disk.info j with status := 0 } }
      dev := { s.dev with taken := s.dev.taken.erase h, served := h :: s.dev.served }
      events := .completed b ((s.disk.ops k).type == blkTOut) (s.disk.ops k).sector :: s.events }
  | _, _, _ => { s with panicked := some "malformed chain" }

/-- A step of `virtio_disk_rw`, of `virtio_disk_intr`, or of the device. -/
inductive Act (ι β : Type) where
  | call (p : ι) (b : β) (write : Bool)
  | rw (p : ι)
  | intrStart
  | intr
  | take
  | serve (h : Nat)
  | ring (h : Nat)
  | publish

def step (s : Sys ι β) (a : Act ι β) : Option (Sys ι β) :=
  if s.panicked.isSome then none
  else match a with
    | .call p b write =>
      if s.pc p = .idle ∧ s.lock = none then
        some { s with pc := update s.pc p (.allocating b write), lock := some (.proc p) }
      else none
    | .rw p => rwStep s p
    | .intrStart => if s.lock = none then some { s with lock := some .intr } else none
    | .intr => if s.lock = some .intr then some (intrStep s) else none
    | .take =>
      if s.dev.idx ≠ s.disk.availIdx then
        some { s with dev := { s.dev with
          idx := (s.dev.idx + 1) % 2 ^ 16
          taken := s.disk.availRing (s.dev.idx % num) :: s.dev.taken } }
      else none
    | .serve h => if h ∈ s.dev.taken then some (serve s h) else none
    | .ring h =>
      if h ∈ s.dev.served ∧ s.dev.ringed = none then
        some { s with
          disk := { s.disk with
            usedRing := update s.disk.usedRing (s.disk.usedRingIdx % num) h }
          dev := { s.dev with served := s.dev.served.erase h, ringed := some h } }
      else none
    | .publish =>
      match s.dev.ringed with
      | some _ => some { s with
          disk := { s.disk with usedRingIdx := (s.disk.usedRingIdx + 1) % 2 ^ 16 }
          dev := { s.dev with ringed := none } }
      | none => none

def init (blockno : β → Nat) : Sys ι β where
  disk := ⟨fun i => i < num, fun _ => ⟨.null, 0, 0, 0⟩, fun _ => 0, 0, fun _ => 0, 0, 0,
    fun _ => ⟨none, 0⟩, fun _ => ⟨0, 0, 0⟩⟩
  dev := ⟨0, [], [], none⟩
  busy := fun _ => false
  blockno := blockno
  lock := none
  pc := fun _ => .idle
  events := []
  panicked := none

end Xv6.Virtio
