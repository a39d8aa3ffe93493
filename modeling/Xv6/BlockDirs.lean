import Xv6.BlockMap

namespace Xv6.Blocks

open Xv6.Lib.Words
open Xv6.Inodes (FileType short direntSize dirsiz)

/-- A `char[DIRSIZ]`, as a C string. -/
abbrev CName := Nat → UInt8

def dot : CName := fun k => if k = 0 then 46 else 0
def dotdot : CName := fun k => if k < 2 then 46 else 0

/-- `strncmp(s, t, n) == 0`, for the bytes from `k` on. -/
def sameBytes (s t : CName) : Nat → Nat → Bool
  | 0, _ => true
  | n + 1, k => if s k ≠ t k then false else if s k = 0 then true else sameBytes s t n (k + 1)

def namecmp (s t : CName) : Bool := sameBytes s t dirsiz 0

def strncpy (s : CName) : CName := fun k => if (List.range k).any (s · = 0) then 0 else s k

def direntBytes (inum : Nat) (name : CName) : Nat → UInt8 :=
  putLE (fun k => if k < 2 then 0 else name (k - 2)) 0 inum 2

def direntInum (de : Nat → UInt8) : Nat := getLE de 0 2

def direntName (de : Nat → UInt8) : CName := fun k => de (k + 2)

/-- `readi(dp, 0, (uint64)&de, off, sizeof(de))`, with the panic of the caller. -/
def readDirent (dp off : Nat) (msg : String) : V (Nat → UInt8) := do
  let (r, de) ← readi dp .kernel (.ofNat off) (.ofNat direntSize)
  if r ≠ direntSize then
    throw msg
  return de

/-- The loop of `dirlookup`; it is over after the last entry. -/
def lookupLoop (dp : Nat) (name : CName) : Nat → Nat → V (Option (Nat × Nat))
  | 0, _ => return none
  | rounds + 1, off => do
    let v ← get
    if off < (v.ip dp).size then do
      let de ← readDirent dp off "dirlookup read"
      if direntInum de ≠ 0 ∧ namecmp name (direntName de) then do
        iget (direntInum de)
        return some (direntInum de, off)
      else
        lookupLoop dp name rounds (off + direntSize)
    else
      return none

def dirlookup (dp : Nat) (name : CName) : V (Option (Nat × Nat)) := do
  let v ← get
  if (v.ip dp).type ≠ .dir then
    throw "dirlookup not DIR"
  lookupLoop dp name ((v.ip dp).size / direntSize + 1) 0

def emptyLoop (dp : Nat) : Nat → Nat → V Nat
  | 0, off => return off
  | rounds + 1, off => do
    let v ← get
    if off < (v.ip dp).size then do
      let de ← readDirent dp off "dirlink read"
      if direntInum de = 0 then
        return off
      else
        emptyLoop dp rounds (off + direntSize)
    else
      return off

def dirlink (dp : Nat) (name : CName) (inum : Nat) : V Bool := do
  match ← dirlookup dp name with
  | some (ip, _) => do
    iput ip
    return false
  | none => do
    let v ← get
    let off ← emptyLoop dp ((v.ip dp).size / direntSize + 1) 0
    let r ← writei dp (.kernel (direntBytes inum (strncpy name))) (.ofNat off) (.ofNat direntSize)
    return r = direntSize

def isdiremptyLoop (dp : Nat) : Nat → Nat → V Bool
  | 0, _ => return true
  | rounds + 1, off => do
    let v ← get
    if off < (v.ip dp).size then do
      let de ← readDirent dp off "isdirempty: readi"
      if direntInum de ≠ 0 then
        return false
      else
        isdiremptyLoop dp rounds (off + direntSize)
    else
      return true

def isdirempty (dp : Nat) : V Bool := do
  let v ← get
  isdiremptyLoop dp ((v.ip dp).size / direntSize + 1) (2 * direntSize)

def changeLinks (i : Nat) (f : Int → Int) : V Unit := do
  modify fun v => v.setIp i { v.ip i with nlink := f (v.ip i).nlink }
  iupdate i

def unlinkBlocked (ip : Nat) : V Bool := do
  let v ← get
  if (v.ip ip).type = .dir then do
    let empty ← isdirempty ip
    return !empty
  else
    return false

def unlinkCounts (dp ip : Nat) : V Bool := do
  let v ← get
  if (v.ip ip).type = .dir then
    changeLinks dp fun n => short (n - 1)
  iput dp
  changeLinks ip fun n => short (n - 1)
  iput ip
  return true

/-- The part of `sys_unlink` that has found the entry at `off` of `dp`, which names `ip`. -/
def unlinkEntry (dp ip off : Nat) : V Bool := do
  ilock ip
  let v ← get
  if (v.ip ip).nlink < 1 then
    throw "unlink: nlink < 1"
  else if ← unlinkBlocked ip then do
    iput ip
    iput dp
    return false
  else do
    let r ← writei dp (.kernel fun _ => 0) (.ofNat off) (.ofNat direntSize)
    if r ≠ direntSize then
      throw "unlink: writei"
    else
      unlinkCounts dp ip

def unlink (dp : Nat) (name : CName) : V Bool := do
  ilock dp
  if namecmp name dot ∨ namecmp name dotdot then do
    iput dp
    return false
  else do
    match ← dirlookup dp name with
    | none => do
      iput dp
      return false
    | some (ip, off) => unlinkEntry dp ip off

/-- The entries of a new inode and its entry in `dp`, up to the exit `fail` of `create`. -/
def createEntries (dp : Nat) (name : CName) (type : FileType) (ip : Nat) : V Bool := do
  if type = .dir then do
    if ¬ (← dirlink ip dot ip) then
      return false
    if ¬ (← dirlink ip dotdot dp) then
      return false
    dirlink dp name ip
  else
    dirlink dp name ip

def createNew (dp : Nat) (name : CName) (type : FileType) : V (Option Nat) := do
  match ← ialloc type with
  | none => do
    iput dp
    return none
  | some ip => do
    ilock ip
    changeLinks ip fun _ => 1
    if ← createEntries dp name type ip then do
      if type = .dir then
        changeLinks dp fun n => short (n + 1)
      iput dp
      return some ip
    else do
      changeLinks ip fun _ => 0
      iput ip
      iput dp
      return none

def create (dp : Nat) (name : CName) (type : FileType) : V (Option Nat) := do
  ilock dp
  match ← dirlookup dp name with
  | some (ip, _) => do
    iput dp
    ilock ip
    let v ← get
    let t := (v.ip ip).type
    if type = .file ∧ (t = .file ∨ t = .device) then
      return some ip
    else do
      iput ip
      return none
  | none => createNew dp name type

inductive Op
  | iget (i : Nat)
  | idup (i : Nat)
  | iput (i : Nat)
  | ialloc (type : FileType)
  | itrunc (i : Nat)
  | readi (i : Nat) (dst : Dst) (off n : UInt32)
  | writei (i : Nat) (src : Src) (off n : UInt32)
  | dirlookup (dp : Nat) (name : CName)
  | dirlink (dp : Nat) (name : CName) (inum : Nat)
  | unlink (dp : Nat) (name : CName)
  | create (dp : Nat) (name : CName) (type : FileType)

def void {α : Type} (m : V α) : V Unit := m >>= fun _ => pure ()

def Op.call : Op → V Unit
  | .iget i => Blocks.iget i
  | .idup i => Blocks.idup i
  | .iput i => Blocks.iput i
  | .ialloc type => void (Blocks.ialloc type)
  | .itrunc i => do ilock i; Blocks.itrunc i
  | .readi i dst off n => do ilock i; void (Blocks.readi i dst off n)
  | .writei i src off n => do ilock i; void (Blocks.writei i src off n)
  | .dirlookup dp name => do ilock dp; void (Blocks.dirlookup dp name)
  | .dirlink dp name inum => do ilock dp; void (Blocks.dirlink dp name inum)
  | .unlink dp name => void (Blocks.unlink dp name)
  | .create dp name type => void (Blocks.create dp name type)

def Op.Allowed (v : Vol) : Op → Prop
  | .idup i | .iput i => 0 < (v.itable i).ref
  | _ => True

instance (v : Vol) : (op : Op) → Decidable (op.Allowed v)
  | .idup i | .iput i => inferInstanceAs (Decidable (0 < (v.itable i).ref))
  | .iget _ | .ialloc _ | .itrunc _ | .readi .. | .writei .. | .dirlookup .. | .dirlink .. | .unlink ..
  | .create .. => inferInstanceAs (Decidable True)

def opStep (v : Vol) (op : Op) : Option Vol :=
  match op.call v with
  | .ok _ w => some w
  | .error _ _ => none

end Xv6.Blocks
