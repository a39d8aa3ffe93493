import Mathlib.Logic.Function.Basic
import Xv6.Lib.Family

namespace Xv6.Inodes

open Function

/-! The inode layer and the directory layer of fs.c, with the file table of file.c and the parts of
a process that refer to inodes. A directory is the list of its 16-byte entries. The cached copy of
an inode and the stored one are one record: every change of a field is followed by `iupdate`. -/

def rootino : Nat := 1
def dirsiz : Nat := 14
def bsize : Nat := 1024
def maxfile : Nat := 12 + 256
def direntSize : Nat := 16
def ninode : Nat := 50
def nfile : Nat := 100
def nofile : Nat := 16
def ndev : Nat := 10

/-- The bytes of a `char[DIRSIZ]` up to its first zero. -/
abbrev Name := List UInt8

def slash : UInt8 := 47
def dot : Name := [46]
def dotdot : Name := [46, 46]

inductive FileType
  | free
  | dir
  | file
  | device
  deriving DecidableEq, Repr

/-- `gen` is not stored: it says which incarnation of the inode number the entry was made for. -/
structure Dirent where
  inum : Nat
  name : Name
  gen : Nat
  deriving DecidableEq, Repr

def Dirent.zero : Dirent := ⟨0, [], 0⟩

/-- An inode with the fields `ref` and `valid` of its entry in the inode table. `gen` is not
stored: it counts how often the inode number has been freed. -/
structure Inode where
  type : FileType
  major : Int
  nlink : Int
  ents : List Dirent
  ref : Nat
  valid : Bool
  gen : Nat
  deriving Repr

structure File where
  ref : Nat
  ip : Option Nat
  deriving Repr

structure Proc where
  cwd : Nat
  ofile : List (Option (Fin nfile))
  deriving Repr

/-- `room n` tells whether the `n`-th block allocation from now on finds a free block. -/
structure State (ι : Type) where
  ninodes : Nat
  inode : Nat → Inode
  file : Fin nfile → File
  proc : ι → Option Proc
  initproc : ι
  room : Nat → Bool

variable {ι : Type}

abbrev F (ι : Type) := EStateM String (State ι)

def short (x : Int) : Int := (x + 2 ^ 15) % 2 ^ 16 - 2 ^ 15

def State.set (s : State ι) (i : Nat) (n : Inode) : State ι :=
  { s with inode := update s.inode i n }

def State.entries (s : State ι) : Nat :=
  (List.range s.ninodes).countP fun i => 0 < (s.inode i).ref

def iget (i : Nat) : F ι Unit := do
  let s ← get
  let n := s.inode i
  if 0 < n.ref then
    set (s.set i { n with ref := n.ref + 1 })
  else if ninode ≤ s.entries then
    throw "iget: no inodes"
  else
    set (s.set i { n with ref := 1, valid := false })

def idup (i : Nat) : F ι Unit :=
  modify fun s => s.set i { s.inode i with ref := (s.inode i).ref + 1 }

def ilock (i : Nat) : F ι Unit := do
  let s ← get
  let n := s.inode i
  if n.ref < 1 then
    throw "ilock"
  else if n.valid then
    pure ()
  else do
    set (s.set i { n with valid := true })
    if n.type = .free then
      throw "ilock: no type"

/-- `iput`, and `iunlockput` of a locked inode: the last reference to an inode without links frees
it together with its contents. -/
def iput (i : Nat) : F ι Unit :=
  modify fun s =>
    let n := s.inode i
    if n.ref = 1 ∧ n.valid ∧ n.nlink = 0 then
      s.set i { n with type := .free, ents := [], valid := false, gen := n.gen + 1, ref := n.ref - 1 }
    else
      s.set i { n with ref := n.ref - 1 }

def ialloc (type : FileType) : F ι (Option Nat) := do
  let s ← get
  match (List.range s.ninodes).find? fun i => 0 < i ∧ (s.inode i).type = .free with
  | none => return none
  | some i =>
    set (s.set i { s.inode i with type := type, major := 0, nlink := 0, ents := [] })
    iget i
    return some i

def itrunc (i : Nat) : F ι Unit :=
  modify fun s => s.set i { s.inode i with ents := [] }

def addLinks (i : Nat) (d : Int) : F ι Unit :=
  modify fun s => s.set i { s.inode i with nlink := short ((s.inode i).nlink + d) }

def dirlookup (dp : Nat) (name : Name) : F ι (Option (Nat × Nat)) := do
  let s ← get
  let n := s.inode dp
  if n.type ≠ .dir then
    throw "dirlookup not DIR"
  match n.ents.findIdx? fun e => e.inum ≠ 0 ∧ e.name = name with
  | none => return none
  | some off => do
    let i := (n.ents.getD off .zero).inum
    iget i
    return some (i, off)

/-- `writei` of one entry at index `off` of a directory of at most that many entries. Only an entry
that starts a new block needs an allocation. -/
def writeEntry (dp off : Nat) (e : Dirent) : F ι Bool := do
  let s ← get
  let n := s.inode dp
  if maxfile * bsize < (off + 1) * direntSize then
    return false
  else if off < n.ents.length then do
    set (s.set dp { n with ents := n.ents.set off e })
    return true
  else if off * direntSize % bsize = 0 then do
    let t := { s with room := fun i => s.room (i + 1) }
    if s.room 0 then do
      set (t.set dp { n with ents := n.ents ++ [e] })
      return true
    else do
      set t
      return false
  else do
    set (s.set dp { n with ents := n.ents ++ [e] })
    return true

def freeSlot (ents : List Dirent) : Nat :=
  (ents.findIdx? fun e => e.inum = 0).getD ents.length

def dirlink (dp : Nat) (name : Name) (i : Nat) : F ι Bool := do
  match ← dirlookup dp name with
  | some (ip, _) => do
    iput ip
    return false
  | none => do
    let s ← get
    writeEntry dp (freeSlot (s.inode dp).ents) ⟨i % 2 ^ 16, name, (s.inode i).gen⟩

def skipelem (path : List UInt8) : Option (Name × List UInt8) :=
  match path.dropWhile (· = slash) with
  | [] => none
  | b :: bs =>
    some (((b :: bs).takeWhile (· ≠ slash)).take dirsiz,
      ((b :: bs).dropWhile (· ≠ slash)).dropWhile (· = slash))

/-- The loop of `namex`. Every round shortens the path, so a fuel above its length is enough. -/
def namexLoop (parent : Bool) : Nat → Nat → Name → List UInt8 → F ι (Option (Nat × Name))
  | 0, _, _, _ => throw "out of fuel"
  | fuel + 1, ip, name, path =>
    match skipelem path with
    | none =>
      if parent then do
        iput ip
        return none
      else
        return some (ip, name)
    | some (name, rest) => do
      ilock ip
      let s ← get
      if (s.inode ip).type ≠ .dir then do
        iput ip
        return none
      else if parent ∧ rest = [] then
        return some (ip, name)
      else do
        match ← dirlookup ip name with
        | none => do
          iput ip
          return none
        | some (next, _) => do
          iput ip
          namexLoop parent fuel next name rest

def namex (p : ι) (path : List UInt8) (parent : Bool) : F ι (Option (Nat × Name)) := do
  let s ← get
  match s.proc p with
  | none => return none
  | some pr => do
    if path.head? = some slash then do
      iget rootino
      namexLoop parent (path.length + 1) rootino [] path
    else do
      idup pr.cwd
      namexLoop parent (path.length + 1) pr.cwd [] path

def namei (p : ι) (path : List UInt8) : F ι (Option (Nat × Name)) := namex p path false

def nameiparent (p : ι) (path : List UInt8) : F ι (Option (Nat × Name)) := namex p path true

def filealloc : F ι (Option (Fin nfile)) := do
  let s ← get
  match (List.finRange nfile).find? fun f => (s.file f).ref = 0 with
  | none => return none
  | some f => do
    set { s with file := update s.file f { s.file f with ref := 1 } }
    return some f

def filedup (f : Fin nfile) : F ι Unit := do
  let s ← get
  if (s.file f).ref < 1 then
    throw "filedup"
  set { s with file := update s.file f { s.file f with ref := (s.file f).ref + 1 } }

def fileclose (f : Fin nfile) : F ι Unit := do
  let s ← get
  let x := s.file f
  if x.ref < 1 then
    throw "fileclose"
  else if 0 < x.ref - 1 then
    set { s with file := update s.file f { x with ref := x.ref - 1 } }
  else do
    set { s with file := update s.file f ⟨0, none⟩ }
    match x.ip with
    | none => pure ()
    | some i => iput i

end Xv6.Inodes
