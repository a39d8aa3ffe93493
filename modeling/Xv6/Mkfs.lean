import Xv6.BlockDirs

namespace Xv6.Mkfs

open Xv6.Lib.Words Xv6.Blocks Function
open Xv6.Inodes (bsize dirsiz direntSize rootino FileType)
open Xv6.LogSystem (memmove)

/-! mkfs.c, with `FSSIZE` as the makefile's default lab has it, and the decoding of the image by the
kernel. Structures are their bytes. -/

def fssize : Nat := 2000
def ninodes : Nat := 200
def bpb : Nat := bsize * 8
def dinodeSize : Nat := 64
def ipb : Nat := bsize / dinodeSize
def fsmagic : Nat := 0x10203040

def nbitmap : Nat := fssize / bpb + 1
def ninodeblocks : Nat := ninodes / ipb + 1
def nlog : Nat := logBlocks + 1
def nmeta : Nat := 2 + nlog + ninodeblocks + nbitmap

def logstart : Nat := 2
def inodestart : Nat := 2 + nlog
def bmapstart : Nat := 2 + nlog + ninodeblocks

/-- The image file, of `len` blocks, and the variables `freeinode` and `freeblock`. -/
structure Disk where
  img : Nat → Block
  len : Nat
  freeinode : Nat
  freeblock : Nat

abbrev M := EStateM String Disk

def Disk.write (s : Disk) (sec : Nat) (buf : Block) : Disk :=
  { s with
    img := update s.img sec buf
    len := max s.len (sec + 1) }

def wsect (sec : Nat) (buf : Block) : M Unit := modify fun s => s.write sec buf

def rsect (sec : Nat) : M Block := do
  let s ← get
  if sec < s.len then
    return s.img sec
  else
    throw "read"

def iblock (i : Nat) : Nat := i / ipb + inodestart

abbrev DinodeBytes := Nat → UInt8

def winode (inum : Nat) (din : DinodeBytes) : M Unit := do
  let buf ← rsect (iblock inum)
  wsect (iblock inum) (memmove buf (inum % ipb * dinodeSize) din dinodeSize)

def rinode (inum : Nat) : M DinodeBytes := do
  let buf ← rsect (iblock inum)
  return fun k => buf (inum % ipb * dinodeSize + k)

def dinType (din : DinodeBytes) : Nat := getLE din 0 2
def dinNlink (din : DinodeBytes) : Nat := getLE din 6 2
def dinSize (din : DinodeBytes) : Nat := getLE din 8 4
def dinAddr (din : DinodeBytes) (k : Nat) : Nat := getLE din (12 + 4 * k) 4

def setSize (din : DinodeBytes) (size : Nat) : DinodeBytes := putLE din 8 size 4
def setAddr (din : DinodeBytes) (k addr : Nat) : DinodeBytes := putLE din (12 + 4 * k) addr 4

def newInode (type : Nat) : DinodeBytes := setSize (putLE (putLE (fun _ => 0) 0 type 2) 6 1 2) 0

def ialloc (type : Nat) : M Nat := do
  let s ← get
  set { s with freeinode := s.freeinode + 1 }
  winode s.freeinode (newInode type)
  return s.freeinode

def nextBlock : M Nat := do
  let s ← get
  set { s with freeblock := s.freeblock + 1 }
  return s.freeblock

/-- `din.addrs[k]`, set to a new block if it is zero. -/
def fillAddr (din : DinodeBytes) (k : Nat) : M DinodeBytes := do
  if dinAddr din k = 0 then do
    let b ← nextBlock
    return setAddr din k b
  else
    return din

def fillEntry (din : DinodeBytes) (k : Nat) : M Nat := do
  let indirect ← rsect (dinAddr din ndirect)
  if word indirect k = 0 then do
    let b ← nextBlock
    wsect (dinAddr din ndirect) (putLE indirect (4 * k) b 4)
    return b
  else
    return word indirect k

def appendBlock (din : DinodeBytes) (fbn : Nat) : M (DinodeBytes × Nat) := do
  if fbn < ndirect then do
    let din ← fillAddr din fbn
    return (din, dinAddr din fbn)
  else do
    let din ← fillAddr din ndirect
    let x ← fillEntry din (fbn - ndirect)
    return (din, x)

/-- `n1` bytes from `p + done` to offset `off` of the file, in one block. -/
def appendBytes (p : Nat → UInt8) (n1 : Nat) (din : DinodeBytes) (off done : Nat) : M DinodeBytes := do
  let fbn := off / bsize
  let (din, x) ← appendBlock din fbn
  let buf ← rsect x
  wsect x (memmove buf (off - fbn * bsize) (fun j => p (done + j)) n1)
  return din

/-- The loop of `iappend`, with `done` of the `n` bytes written. Each round writes at least one byte, so
`n` rounds are enough. -/
def appendLoop (p : Nat → UInt8) (n : Nat) : Nat → DinodeBytes → Nat → Nat → M (DinodeBytes × Nat)
  | 0, din, off, _ => return (din, off)
  | rounds + 1, din, off, done =>
    if done < n then
      if maxfile ≤ off / bsize then
        throw "fbn < MAXFILE"
      else do
        let n1 := min (n - done) ((off / bsize + 1) * bsize - off)
        let din ← appendBytes p n1 din off done
        appendLoop p n rounds din (off + n1) (done + n1)
    else
      return (din, off)

def iappend (inum : Nat) (p : Nat → UInt8) (n : Nat) : M Unit := do
  let din ← rinode inum
  let (din, off) ← appendLoop p n n din (dinSize din) 0
  winode inum (setSize din off)

def bitmap (used : Nat) : Block := (List.range used).foldl
  (fun buf i => update buf (i / 8) (buf (i / 8) ||| 1 <<< UInt8.ofNat (i % 8))) fun _ => 0

def balloc (used : Nat) : M Unit :=
  if used < bpb then wsect bmapstart (bitmap used) else throw "used < BPB"

structure Source where
  path : List UInt8
  chunks : List (List UInt8)

def Source.contents (f : Source) : List UInt8 := f.chunks.flatten

def userDir : List UInt8 := [117, 115, 101, 114, 47]

def Source.base (f : Source) : List UInt8 :=
  if f.path.take 5 = userDir then f.path.drop 5 else f.path

def Source.shortname (f : Source) : List UInt8 :=
  match f.base with
  | 95 :: rest => rest
  | name => name

def cstring (name : List UInt8) : CName := fun k => name.getD k 0

def appendDirent (inum : Nat) (name : List UInt8) : M Unit :=
  iappend rootino (direntBytes inum (strncpy (cstring name))) direntSize

def addFile (f : Source) : M Unit :=
  if 47 ∈ f.base then
    throw "index(shortname, '/') == 0"
  else if dirsiz < f.shortname.length then
    throw "strlen(shortname) <= DIRSIZ"
  else do
    let inum ← ialloc 2
    appendDirent inum f.shortname
    f.chunks.forM fun buf => iappend inum (fun k => buf.getD k 0) buf.length

def superWords : List Nat :=
  [fsmagic, fssize, fssize - nmeta, ninodes, nlog, logstart, inodestart, bmapstart]

def superBlock : Block :=
  superWords.zipIdx.foldl (fun buf w => putLE buf (4 * w.2) w.1 4) fun _ => 0

def fixRoot : M Unit := do
  let din ← rinode rootino
  winode rootino (setSize din ((dinSize din / bsize + 1) * bsize))

@[irreducible] def zeroes (n : Nat) : M Unit := (List.range n).forM fun i => wsect i fun _ => 0

def main (files : List Source) : M Unit := do
  zeroes fssize
  wsect 1 superBlock
  let root ← ialloc 1
  if root ≠ rootino then
    throw "rootino == ROOTINO"
  else do
    appendDirent root Inodes.dot
    appendDirent root Inodes.dotdot
    files.forM addFile
    fixRoot
    let s ← get
    balloc s.freeblock

def start : Disk where
  img _ _ := 0
  len := 0
  freeinode := 1
  freeblock := nmeta

def sbWord (img : Nat → Block) (k : Nat) : Nat := word (img 1) k

def fileType : Nat → FileType
  | 0 => .free
  | 1 => .dir
  | 2 => .file
  | _ => .device

def decode (din : DinodeBytes) : Dinode where
  type := fileType (dinType din)
  nlink := (BitVec.ofNat 16 (dinNlink din)).toInt
  size := dinSize din
  addrs k := if k ≤ ndirect then dinAddr din k else 0

/-- The `struct dinode` in its block, with `IBLOCK` as the super block has it. -/
def dinodeAt (img : Nat → Block) (i : Nat) : DinodeBytes :=
  fun k => img (i / ipb + sbWord img 6) (i % ipb * dinodeSize + k)

/-- The test of `balloc`, negated: the bit of block `b` is set. -/
def bitAt (img : Nat → Block) (b : Nat) : Bool :=
  let bi := b % bpb
  img (b / bpb + sbWord img 7) (bi / 8) &&& 1 <<< UInt8.ofNat (bi % 8) ≠ 0

/-- The volume that the kernel finds on the disk, if the super block has the right magic number. -/
def mount (img : Nat → Block) : Option Vol :=
  if sbWord img 0 = fsmagic then some
    { size := sbWord img 1
      nmeta := sbWord img 1 - sbWord img 2
      ninodes := sbWord img 3
      bit := fun b => b < sbWord img 1 && bitAt img b
      blk := img
      dinode := fun i => if i < sbWord img 3 then decode (dinodeAt img i) else Dinode.zero
      itable := fun _ => ⟨0, false, Dinode.zero⟩ }
  else none

end Xv6.Mkfs
