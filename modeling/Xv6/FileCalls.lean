import Xv6.Inodes

namespace Xv6.Inodes

open Function

/-! The system calls of sysfile.c that change names, references and link counts, with `kfork` and
`kexit` of proc.c. A call that fails returns `false` or `none`. -/

def oRdonly : Nat := 0x000
def oWronly : Nat := 0x001
def oRdwr : Nat := 0x002
def oCreate : Nat := 0x200
def oTrunc : Nat := 0x400

variable {ι : Type} [DecidableEq ι]

def State.setProc (s : State ι) (p : ι) (pr : Option Proc) : State ι :=
  { s with proc := update s.proc p pr }

def linkBad (ip : Nat) : F ι Bool := do
  ilock ip
  addLinks ip (-1)
  iput ip
  return false

def linkFind (p : ι) (old : List UInt8) : F ι (Option Nat) := do
  match ← namei p old with
  | none => return none
  | some (ip, _) => do
    ilock ip
    let s ← get
    if (s.inode ip).type = .dir then do
      iput ip
      return none
    else do
      addLinks ip 1
      return some ip

def sysLink (p : ι) (old new : List UInt8) : F ι Bool := do
  match ← linkFind p old with
  | none => return false
  | some ip => do
    match ← nameiparent p new with
    | none => linkBad ip
    | some (dp, name) => do
      ilock dp
      if ← dirlink dp name ip then do
        iput dp
        iput ip
        return true
      else do
        iput dp
        linkBad ip

def isdirempty (n : Inode) : Bool := (n.ents.drop 2).all fun e => e.inum = 0

def unlinkEntry (dp ip off : Nat) : F ι Bool := do
  ilock ip
  let s ← get
  let n := s.inode ip
  if n.nlink < 1 then
    throw "unlink: nlink < 1"
  else if n.type = .dir ∧ ¬ isdirempty n then do
    iput ip
    iput dp
    return false
  else do
    if ¬ (← writeEntry dp off .zero) then
      throw "unlink: writei"
    if n.type = .dir then
      addLinks dp (-1)
    iput dp
    addLinks ip (-1)
    iput ip
    return true

def sysUnlink (p : ι) (path : List UInt8) : F ι Bool := do
  match ← nameiparent p path with
  | none => return false
  | some (dp, name) => do
    ilock dp
    if name = dot ∨ name = dotdot then do
      iput dp
      return false
    else do
      match ← dirlookup dp name with
      | none => do
        iput dp
        return false
      | some (ip, off) => unlinkEntry dp ip off

def createEntries (dp : Nat) (name : Name) (type : FileType) (ip : Nat) : F ι Bool := do
  if type = .dir then do
    if ¬ (← dirlink ip dot ip) then
      return false
    if ¬ (← dirlink ip dotdot dp) then
      return false
    dirlink dp name ip
  else
    dirlink dp name ip

def createNew (dp : Nat) (name : Name) (type : FileType) (major : Int) : F ι (Option Nat) := do
  match ← ialloc type with
  | none => do
    iput dp
    return none
  | some ip => do
    ilock ip
    modify fun s => s.set ip { s.inode ip with major := major, nlink := 1 }
    if ← createEntries dp name type ip then do
      if type = .dir then
        addLinks dp 1
      iput dp
      return some ip
    else do
      modify fun s => s.set ip { s.inode ip with nlink := 0 }
      iput ip
      iput dp
      return none

def create (p : ι) (path : List UInt8) (type : FileType) (major : Int) : F ι (Option Nat) := do
  match ← nameiparent p path with
  | none => return none
  | some (dp, name) => do
    ilock dp
    match ← dirlookup dp name with
    | some (ip, _) => do
      iput dp
      ilock ip
      let s ← get
      let t := (s.inode ip).type
      if type = .file ∧ (t = .file ∨ t = .device) then
        return some ip
      else do
        iput ip
        return none
    | none => createNew dp name type major

def fdalloc (p : ι) (f : Fin nfile) : F ι (Option Nat) := do
  let s ← get
  match s.proc p with
  | none => return none
  | some pr =>
    match pr.ofile.findIdx? fun x => x = none with
    | none => return none
    | some fd => do
      set (s.setProc p (some { pr with ofile := pr.ofile.set fd (some f) }))
      return some fd

def openInode (p : ι) (ip omode : Nat) : F ι (Option Nat) := do
  let s ← get
  let n := s.inode ip
  if n.type = .device ∧ (n.major < 0 ∨ ndev ≤ n.major) then do
    iput ip
    return none
  else do
    match ← filealloc with
    | none => do
      iput ip
      return none
    | some f => do
      match ← fdalloc p f with
      | none => do
        fileclose f
        iput ip
        return none
      | some fd => do
        modify fun s => { s with file := update s.file f { s.file f with ip := some ip } }
        if omode &&& oTrunc ≠ 0 ∧ n.type = .file then
          itrunc ip
        return some fd

def sysOpen (p : ι) (path : List UInt8) (omode : Nat) : F ι (Option Nat) := do
  if omode &&& oCreate ≠ 0 then do
    match ← create p path .file 0 with
    | none => return none
    | some ip => openInode p ip omode
  else do
    match ← namei p path with
    | none => return none
    | some (ip, _) => do
      ilock ip
      let s ← get
      if (s.inode ip).type = .dir ∧ omode ≠ oRdonly then do
        iput ip
        return none
      else
        openInode p ip omode

def sysMake (p : ι) (path : List UInt8) (type : FileType) (major : Int) : F ι Bool := do
  match ← create p path type major with
  | none => return false
  | some ip => do
    iput ip
    return true

def sysMkdir (p : ι) (path : List UInt8) : F ι Bool := sysMake p path .dir 0

def sysMknod (p : ι) (path : List UInt8) (major : Int) : F ι Bool := sysMake p path .device (short major)

def sysChdir (p : ι) (path : List UInt8) : F ι Bool := do
  match ← namei p path with
  | none => return false
  | some (ip, _) => do
    ilock ip
    let s ← get
    if (s.inode ip).type ≠ .dir then do
      iput ip
      return false
    else
      match s.proc p with
      | none => return false
      | some pr => do
        iput pr.cwd
        modify fun s => s.setProc p (some { pr with cwd := ip })
        return true

def sysClose (p : ι) (fd : Nat) : F ι Bool := do
  let s ← get
  match s.proc p with
  | none => return false
  | some pr =>
    match pr.ofile.getD fd none with
    | none => return false
    | some f => do
      set (s.setProc p (some { pr with ofile := pr.ofile.set fd none }))
      fileclose f
      return true

def exitFile (p : ι) (fd : Nat) : F ι Unit := do
  let s ← get
  match s.proc p with
  | none => pure ()
  | some pr =>
    match pr.ofile.getD fd none with
    | none => pure ()
    | some f => do
      fileclose f
      modify fun s => s.setProc p (some { pr with ofile := pr.ofile.set fd none })

def kexit (p : ι) : F ι Unit := do
  let s ← get
  if p = s.initproc then
    throw "init exiting"
  (List.range nofile).forM (exitFile p)
  let s ← get
  match s.proc p with
  | none => pure ()
  | some pr => do
    iput pr.cwd
    modify fun s => s.setProc p none

def dupFiles : List (Option (Fin nfile)) → F ι Unit
  | [] => pure ()
  | none :: fs => dupFiles fs
  | some f :: fs => do
    filedup f
    dupFiles fs

/-- What `kfork` does with open files and the current directory; `child` is a free process slot. -/
def kfork (p child : ι) : F ι Bool := do
  let s ← get
  match s.proc p, s.proc child with
  | some pr, none => do
    dupFiles pr.ofile
    idup pr.cwd
    modify fun s => s.setProc child (some pr)
    return true
  | _, _ => return false

inductive Call (ι : Type)
  | mkdir (path : List UInt8)
  | mknod (path : List UInt8) (major : Int)
  | «open» (path : List UInt8) (omode : Nat)
  | link (old new : List UInt8)
  | unlink (path : List UInt8)
  | chdir (path : List UInt8)
  | close (fd : Nat)
  | fork (child : ι)
  | exit

def void {α : Type} (m : F ι α) : F ι Unit := m >>= fun _ => pure ()

def call (p : ι) : Call ι → F ι Unit
  | .mkdir path => void (sysMkdir p path)
  | .mknod path major => void (sysMknod p path major)
  | .open path omode => void (sysOpen p path omode)
  | .link old new => void (sysLink p old new)
  | .unlink path => void (sysUnlink p path)
  | .chdir path => void (sysChdir p path)
  | .close fd => void (sysClose p fd)
  | .fork child => void (kfork p child)
  | .exit => kexit p

/-- A call is taken by a process that exists; a panic stops the system. -/
def callStep (s : State ι) (a : ι × Call ι) : Option (State ι) :=
  if (s.proc a.1).isSome then
    match call a.1 a.2 s with
    | .ok _ t => some t
    | .error _ _ => none
  else
    none

end Xv6.Inodes
