import Xv6.Inodes
import Xv6.Lib.Words
import Xv6.WriteiCopy

namespace Xv6.Blocks

open Xv6.Lib.Words Function
open Xv6.Inodes (FileType bsize ninode)
open Xv6.LogSystem (memmove copyin)

/-! The block layer of fs.c: the bitmap, the inodes with the blocks they point to, and the directory
layer over them. Blocks are read and written as the buffer cache shows them. -/

def ndirect : Nat := 12
def nindirect : Nat := bsize / 4
def maxfile : Nat := ndirect + nindirect

structure Dinode where
  type : FileType
  nlink : Int
  size : Nat
  addrs : Nat → Nat

def Dinode.zero : Dinode := ⟨.free, 0, 0, fun _ => 0⟩

structure Entry where
  ref : Nat
  valid : Bool
  ip : Dinode

/-- `nmeta` blocks come before the first data block. -/
structure Vol where
  size : Nat
  nmeta : Nat
  ninodes : Nat
  bit : Nat → Bool
  blk : Nat → Block
  dinode : Nat → Dinode
  itable : Nat → Entry

abbrev V := EStateM String Vol

def Vol.ip (v : Vol) (i : Nat) : Dinode := (v.itable i).ip

def Vol.setEntry (v : Vol) (i : Nat) (e : Entry) : Vol :=
  { v with itable := update v.itable i e }

def Vol.setIp (v : Vol) (i : Nat) (n : Dinode) : Vol := v.setEntry i { v.itable i with ip := n }

def word (x : Block) (k : Nat) : Nat := getLE x (4 * k) 4

/-- What is given to `log_write`: the bitmap block of a block, the block of an inode, or a block. -/
inductive Logged
  | bitmap (b : Nat)
  | inode (i : Nat)
  | block (b : Nat)

section Logging

/-! The functions that write to the file system, for any way to keep the log. -/

variable {m : Type → Type} [Monad m] [MonadStateOf Vol m] [MonadExceptOf String m] (log : Logged → m Unit)

def bzeroBy (b : Nat) : m Unit := do
  modify fun v : Vol => { v with blk := update v.blk b (fun _ => 0) }
  log (.block b)

def ballocBy : m Nat := do
  let v : Vol ← get
  match (List.range v.size).find? fun b => v.bit b = false with
  | none => return 0
  | some b => do
    set { v with bit := update v.bit b true }
    log (.bitmap b)
    bzeroBy log b
    return b

/-- `ip->addrs[k]`, allocating a block there if there is none. -/
def addrBlockBy (i k : Nat) : m Nat := do
  let v : Vol ← get
  if (v.ip i).addrs k = 0 then do
    let addr ← ballocBy log
    if addr = 0 then
      return 0
    modify fun v : Vol => v.setIp i { v.ip i with addrs := update (v.ip i).addrs k addr }
    return addr
  else
    return (v.ip i).addrs k

def entryBlockBy (ind bn : Nat) : m Nat := do
  let v : Vol ← get
  if word (v.blk ind) bn = 0 then do
    let addr ← ballocBy log
    if addr = 0 then
      return 0
    modify fun v : Vol => { v with blk := update v.blk ind (putLE (v.blk ind) (4 * bn) addr 4) }
    log (.block ind)
    return addr
  else
    return word (v.blk ind) bn

def bmapBy (i bn : Nat) : m Nat := do
  if bn < ndirect then
    addrBlockBy log i bn
  else if bn - ndirect < nindirect then do
    let ind ← addrBlockBy log i ndirect
    if ind = 0 then
      return 0
    entryBlockBy log ind (bn - ndirect)
  else
    throw "bmap: out of range"

def iupdateBy (i : Nat) : m Unit := do
  modify fun v : Vol => { v with dinode := update v.dinode i (v.ip i) }
  log (.inode i)

/-- Where `writei` takes the bytes from: the pages of a user address space, or kernel memory. -/
inductive Src
  | kernel (bytes : Nat → UInt8)
  | user (pages : Nat → Option (Nat → UInt8)) (va : Nat)

/-- Copy `m` bytes from offset `tot` of the source to `x + off`. -/
def eitherCopyin (src : Src) (x : Block) (off tot m : Nat) : Block × Bool :=
  match src with
  | .kernel bytes => (memmove x off (fun j => bytes (tot + j)) m, true)
  | .user pages va => copyin pages x off (va + tot) m

def writeLoopBy (i : Nat) (src : Src) (n : Nat) : Nat → Nat → Nat → m (Nat × Nat)
  | 0, off, tot => return (off, tot)
  | rounds + 1, off, tot =>
    if tot < n then do
      let addr ← bmapBy log i (off / bsize)
      if addr = 0 then
        return (off, tot)
      let v : Vol ← get
      let m := min (n - tot) (bsize - off % bsize)
      let (x, copied) := eitherCopyin src (v.blk addr) (off % bsize) tot m
      set { v with blk := update v.blk addr x }
      if copied then do
        log (.block addr)
        writeLoopBy i src n rounds (off + m) (tot + m)
      else
        return (off, tot)
    else
      return (off, tot)

def writeiBy (i : Nat) (src : Src) (off n : UInt32) : m Int := do
  let v : Vol ← get
  if (v.ip i).size < off.toNat ∨ off + n < off then
    return -1
  if maxfile * bsize < (off + n).toNat then
    return -1
  let (off, tot) ← writeLoopBy log i src n.toNat n.toNat off.toNat 0
  modify fun v : Vol => if (v.ip i).size < off then v.setIp i { v.ip i with size := off } else v
  iupdateBy log i
  return tot

end Logging

/-- The log is left out where only the file system matters. -/
def noLog (_ : Logged) : V Unit := pure ()

def balloc : V Nat := ballocBy noLog

def addrBlock (i k : Nat) : V Nat := addrBlockBy noLog i k

def entryBlock (ind bn : Nat) : V Nat := entryBlockBy noLog ind bn

def bmap (i bn : Nat) : V Nat := bmapBy noLog i bn

def iupdate (i : Nat) : V Unit := iupdateBy noLog i

def bfree (b : Nat) : V Unit := do
  let v ← get
  if v.bit b = false then
    throw "freeing free block"
  set { v with bit := update v.bit b false }

def setAddr (i k a : Nat) : V Unit :=
  modify fun v => v.setIp i { v.ip i with addrs := update (v.ip i).addrs k a }

def truncDirect (i k : Nat) : V Unit := do
  let v ← get
  if (v.ip i).addrs k ≠ 0 then do
    bfree ((v.ip i).addrs k)
    setAddr i k 0

def truncEntry (ind j : Nat) : V Unit := do
  let v ← get
  if word (v.blk ind) j ≠ 0 then
    bfree (word (v.blk ind) j)

def truncIndirect (i : Nat) : V Unit := do
  let v ← get
  let ind := (v.ip i).addrs ndirect
  if ind ≠ 0 then do
    (List.range nindirect).forM (truncEntry ind)
    bfree ind
    setAddr i ndirect 0

def itrunc (i : Nat) : V Unit := do
  (List.range ndirect).forM (truncDirect i)
  truncIndirect i
  modify fun v => v.setIp i { v.ip i with size := 0 }
  iupdate i

def Vol.entries (v : Vol) : Nat := (List.range v.ninodes).countP fun i => 0 < (v.itable i).ref

def iget (i : Nat) : V Unit := do
  let v ← get
  let e := v.itable i
  if 0 < e.ref then
    set (v.setEntry i { e with ref := e.ref + 1 })
  else if ninode ≤ v.entries then
    throw "iget: no inodes"
  else
    set (v.setEntry i { e with ref := 1, valid := false })

def idup (i : Nat) : V Unit :=
  modify fun v => v.setEntry i { v.itable i with ref := (v.itable i).ref + 1 }

def ilock (i : Nat) : V Unit := do
  let v ← get
  let e := v.itable i
  if e.ref < 1 then
    throw "ilock"
  else if e.valid then
    pure ()
  else do
    set (v.setEntry i { e with valid := true, ip := v.dinode i })
    if (v.dinode i).type = .free then
      throw "ilock: no type"

def iput (i : Nat) : V Unit := do
  let v ← get
  let e := v.itable i
  if e.ref = 1 ∧ e.valid ∧ e.ip.nlink = 0 then do
    itrunc i
    modify fun v => v.setIp i { v.ip i with type := .free }
    iupdate i
    modify fun v => v.setEntry i { v.itable i with valid := false }
  modify fun v => v.setEntry i { v.itable i with ref := (v.itable i).ref - 1 }

def ialloc (type : FileType) : V (Option Nat) := do
  let v ← get
  match (List.range v.ninodes).find? fun i => 0 < i ∧ (v.dinode i).type = .free with
  | none => return none
  | some i => do
    set { v with dinode := update v.dinode i { Dinode.zero with type := type } }
    iget i
    return some i

/-- Where `readi` puts the bytes. The copy of `m` bytes to offset `tot` of a user buffer may fail. -/
inductive Dst
  | kernel
  | user (fails : Nat → Nat → Bool)

def Dst.fails : Dst → Nat → Nat → Bool
  | .kernel, _, _ => false
  | .user fails, tot, m => fails tot m

/-- The loop of `readi`. Each round reads at least one byte, so `n` rounds are enough. -/
def readLoop (i : Nat) (dst : Dst) (n : Nat) : Nat → Nat → Nat → (Nat → UInt8) → V (Int × (Nat → UInt8))
  | 0, _, tot, buf => return (tot, buf)
  | rounds + 1, off, tot, buf =>
    if tot < n then do
      let addr ← bmap i (off / bsize)
      if addr = 0 then
        return (tot, buf)
      let v ← get
      let m := min (n - tot) (bsize - off % bsize)
      if dst.fails tot m then
        return (-1, buf)
      readLoop i dst n rounds (off + m) (tot + m)
        (memmove buf tot (fun j => v.blk addr (off % bsize + j)) m)
    else
      return (tot, buf)

def readi (i : Nat) (dst : Dst) (off n : UInt32) : V (Int × (Nat → UInt8)) := do
  let v ← get
  let size := (v.ip i).size
  if size < off.toNat ∨ off + n < off then
    return (0, fun _ => 0)
  let n := if size < (off + n).toNat then size - off.toNat else n.toNat
  readLoop i dst n n off.toNat 0 (fun _ => 0)

def writeLoop (i : Nat) (src : Src) (n rounds off tot : Nat) : V (Nat × Nat) :=
  writeLoopBy noLog i src n rounds off tot

def writei (i : Nat) (src : Src) (off n : UInt32) : V Int := writeiBy noLog i src off n

end Xv6.Blocks
