import Xv6.FileTable
import Xv6.PathResolution

namespace Xv6.Blocks

open Xv6.Lib Function
open Xv6.Inodes (FileType short oRdonly oCreate oTrunc nofile)

/-! The system calls of sysfile.c that work on names, with the file system, the file table and the
descriptors of the processes. -/

/-- `m` run by a process that has no inode locked. -/
def alone {α : Type} (m : F α) : V α := fun v =>
  match m ⟨v, fun _ => false⟩ with
  | .ok a s => .ok a s.vol
  | .error e s => .error e s.vol

def linkBad (ip : Nat) : V Bool := do
  ilock ip
  changeLinks ip fun n => short (n - 1)
  iput ip
  return false

def linkEntry (cwd ip : Nat) (new : List UInt8) (name : CName) : V Bool := do
  match ← alone (nameiparent cwd new name) with
  | (none, _) => linkBad ip
  | (some dp, name) => do
    ilock dp
    if ← dirlink dp name ip then do
      iput dp
      iput ip
      return true
    else do
      iput dp
      linkBad ip

/-- `name` is what the array `name` on the stack holds at first. -/
def link (cwd : Nat) (old new : List UInt8) (name : CName) : V Bool := do
  match ← alone (namei cwd old name) with
  | none => return false
  | some ip => do
    ilock ip
    let v ← get
    if (v.ip ip).type = .dir then do
      iput ip
      return false
    else do
      changeLinks ip fun n => short (n + 1)
      linkEntry cwd ip new name

def unlinkPath (cwd : Nat) (path : List UInt8) (name : CName) : V Bool := do
  match ← alone (nameiparent cwd path name) with
  | (none, _) => return false
  | (some dp, name) => unlink dp name

def createPath (cwd : Nat) (path : List UInt8) (name : CName) (type : FileType) : V (Option Nat) := do
  match ← alone (nameiparent cwd path name) with
  | (none, _) => return none
  | (some dp, name) => create dp name type

def openFound (cwd : Nat) (path : List UInt8) (name : CName) (omode : Nat) : V (Option Nat) := do
  match ← alone (namei cwd path name) with
  | none => return none
  | some ip => do
    ilock ip
    let v ← get
    if (v.ip ip).type = .dir ∧ omode ≠ oRdonly then do
      iput ip
      return none
    else
      return some ip

def chdirInode (cwd : Nat) (path : List UInt8) (name : CName) : V (Option Nat) := do
  match ← alone (namei cwd path name) with
  | none => return none
  | some ip => do
    ilock ip
    let v ← get
    if (v.ip ip).type ≠ .dir then do
      iput ip
      return none
    else do
      iput cwd
      return some ip

/-- `major` gives the device number of an inode. -/
structure Kernel (ι : Type) where
  vol : Vol
  major : Nat → Int
  files : Files.State ι
  cwd : ι → Nat

variable {ι : Type} [DecidableEq ι]

abbrev K (ι : Type) := EStateM String (Kernel ι)

def inVol {α : Type} (m : V α) : K ι α := zoom Kernel.vol (fun v k => { k with vol := v }) m

def inFiles {α : Type} (m : Files.M ι α) : K ι α := zoom Kernel.files (fun s k => { k with files := s }) m

/-- A path that `argstr` has copied; it may be any string that fits. -/
abbrev Path := { path : List UInt8 // (0 : UInt8) ∉ path }

/-- What a process asks for. The path is none if `argstr` fails. -/
inductive NameCall
  | «open» (path : Option Path) (omode : Nat)
  | mkdir (path : Option Path)
  | mknod (path : Option Path) (major minor : Int)
  | link (old new : Option Path)
  | unlink (path : Option Path)
  | chdir (path : Option Path)

def status (done : Bool) : Int := if done then 0 else -1

/-- `create`; an inode that was free before the call gets the device number. -/
def createNode (p : ι) (path : Path) (type : FileType) (major : Int) (name : CName) :
    K ι (Option Nat) := do
  let k ← get
  match ← inVol (createPath (k.cwd p) path.1 name type) with
  | none => return none
  | some ip => do
    modify fun k' => { k' with
      major := if (k.vol.cur ip).type = .free then update k'.major ip major else k'.major }
    return some ip

/-- The first part of `sys_open`: the inode, locked. -/
def openInode (p : ι) (path : Path) (omode : Nat) (name : CName) : K ι (Option Nat) := do
  if omode &&& oCreate ≠ 0 then
    createNode p path .file 0 name
  else do
    let k ← get
    inVol (openFound (k.cwd p) path.1 name omode)

def openFile (p : ι) (ip omode : Nat) : K ι Int := do
  let k ← get
  match ← inFiles (Files.sysOpen p (some ⟨ip, (k.vol.ip ip).type, k.major ip⟩) omode) with
  | none => do
    inVol (iput ip)
    return -1
  | some fd => do
    if omode &&& oTrunc ≠ 0 ∧ (k.vol.ip ip).type = .file then
      inVol (itrunc ip)
    return fd.1

def sysOpen (p : ι) (path : Option Path) (omode : Nat) (name : CName) : K ι Int := do
  match path with
  | none => return -1
  | some path =>
    match ← openInode p path omode name with
    | none => return -1
    | some ip => openFile p ip omode

def sysMake (p : ι) (path : Option Path) (type : FileType) (major : Int) (name : CName) : K ι Int := do
  match path with
  | none => return -1
  | some path =>
    match ← createNode p path type major name with
    | none => return -1
    | some ip => do
      inVol (iput ip)
      return 0

def sysLink (p : ι) (old new : Option Path) (name : CName) : K ι Int := do
  let k ← get
  match old, new with
  | some old, some new => do
    let done ← inVol (link (k.cwd p) old.1 new.1 name)
    return status done
  | _, _ => return -1

def sysUnlink (p : ι) (path : Option Path) (name : CName) : K ι Int := do
  let k ← get
  match path with
  | none => return -1
  | some path => do
    let done ← inVol (unlinkPath (k.cwd p) path.1 name)
    return status done

def sysChdir (p : ι) (path : Option Path) (name : CName) : K ι Int := do
  let k ← get
  match path with
  | none => return -1
  | some path =>
    match ← inVol (chdirInode (k.cwd p) path.1 name) with
    | none => return -1
    | some ip => do
      modify fun k => { k with cwd := update k.cwd p ip }
      return 0

def nameCall (p : ι) (name : CName) : NameCall → K ι Int
  | .open path omode => sysOpen p path omode name
  | .mkdir path => sysMake p path .dir 0 name
  | .mknod path major _ => sysMake p path .device (short major) name
  | .link old new => sysLink p old new name
  | .unlink path => sysUnlink p path name
  | .chdir path => sysChdir p path name

end Xv6.Blocks
