import Xv6.FailedNames

namespace Xv6.Files

open Xv6.Lib Function
open Xv6.Inodes (nfile)

variable {ι : Type} {s : State ι} {p : ι} {f : Fin nfile}

def State.FreeFile (s : State ι) : Prop := ∃ f, (s.file f).ref = 0

def State.FreeFd (s : State ι) (p : ι) : Prop := ∃ fd, s.ofile (p, fd) = none

theorem filealloc_slot : Completes (filealloc : M ι _) s fun r t => match r with
    | none => t = s ∧ ¬s.FreeFile
    | some f => s.FreeFile ∧ (s.file f).ref = 0 ∧
        t = { s with file := update s.file f { s.file f with ref := 1 } } := by
  unfold filealloc
  apply Ensures.bind_get
  split
  · next hnone =>
    refine .pure ⟨rfl, ?_⟩
    rintro ⟨f, hf⟩
    exact absurd (decide_eq_true hf) (List.find?_eq_none.mp hnone f (List.mem_finRange f))
  · next f hf =>
    have hfree : (s.file f).ref = 0 := by simpa using List.find?_some hf
    apply Ensures.bind_set
    exact .pure ⟨⟨f, hfree⟩, hfree, rfl⟩

theorem fileclose_taken (href : (s.file f).ref = 1) (htype : (s.file f).type = .none) :
    Completes (fileclose f) s fun _ t => t.ofile = s.ofile := by
  unfold fileclose
  apply Ensures.bind_get
  dsimp only
  rw [href, if_neg (by decide), if_neg (by decide)]
  apply Ensures.bind_set
  rw [htype, if_neg (by decide)]
  exact .pure rfl

variable [DecidableEq ι]

theorem fdalloc_slot : Completes (fdalloc p f) s fun r t => match r with
    | none => t = s ∧ ¬s.FreeFd p
    | some _ => s.FreeFd p := by
  unfold fdalloc
  apply Ensures.bind_get
  split
  · next hnone =>
    refine .pure ⟨rfl, ?_⟩
    rintro ⟨fd, hfd⟩
    exact absurd (decide_eq_true hfd) (List.find?_eq_none.mp hnone fd (List.mem_finRange fd))
  · next fd hfd =>
    apply Ensures.bind_modify
    exact .pure ⟨fd, by simpa using List.find?_some hfd⟩

/-- `sys_open` of an inode that is no device fails exactly if there is no free file or no free descriptor. -/
theorem sysOpen_slots (hclosed : ∀ f, (s.file f).ref = 0 → (s.file f).type = .none) (found : Found) (omode : Nat) :
    Completes (sysOpen p (some found) omode) s fun r t => (r = none → t.ofile = s.ofile) ∧
      (found.type ≠ .device → (r = none ↔ ¬(s.FreeFile ∧ s.FreeFd p))) := by
  unfold sysOpen
  dsimp only
  split
  · next hdev => exact .pure ⟨fun _ => rfl, fun hne => absurd hdev.1 hne⟩
  · refine filealloc_slot.seq ?_
    rintro (_ | f) t ht
    · obtain ⟨rfl, hfull⟩ := ht
      exact .pure ⟨fun _ => rfl, fun _ => iff_of_true rfl fun hc => hfull hc.1⟩
    · obtain ⟨hfile, hfree, rfl⟩ := ht
      refine fdalloc_slot.seq ?_
      rintro (_ | fd) u hu
      · obtain ⟨rfl, hfull⟩ := hu
        refine (fileclose_taken ?_ ?_).seq fun _ x hx => .pure ⟨fun _ => hx, fun _ => iff_of_true rfl ?_⟩
        · dsimp only
          rw [update_self]
        · dsimp only
          rw [update_self]
          exact hclosed f hfree
        · exact fun hc => hfull hc.2
      · apply Ensures.bind_modify
        exact .pure ⟨nofun, fun _ => iff_of_false nofun fun hc => hc ⟨hfile, hu⟩⟩

end Xv6.Files

namespace Xv6.Blocks

open Xv6.Lib Function
open Xv6.Inodes (FileType short oCreate)

variable {ι : Type} {k l : Kernel ι} {p : ι} {ip : Nat} {name : CName}

/-- The kernel between two calls: the blocks are owned as they should be, directories consist of whole
entries, a free inode or file is not in use, link counts fit a `short`, and `p` has a current directory. -/
structure Ready (p : ι) (k : Kernel ι) : Prop where
  steady : Steady k.vol
  idle : ∀ j, (k.vol.cur j).type = .free → (k.vol.itable j).ref = 0
  short : ∀ j, short (k.vol.cur j).nlink = (k.vol.cur j).nlink
  cwd : 0 < (k.vol.itable (k.cwd p)).ref
  closed : ∀ f, (k.files.file f).ref = 0 → (k.files.file f).type = .none

/-- The directories and the inodes, the set of allocated inodes, the descriptors and the current
directories are those of `k`. -/
structure Unchanged (k l : Kernel ι) : Prop where
  tables : ∀ j, (k.vol.cur j).type = .dir → l.vol.table j = k.vol.table j
  inodes : ∀ j, (k.vol.cur j).type ≠ .free → SameFile j k.vol l.vol
  allocated : ∀ j, (l.vol.cur j).type = .free ↔ (k.vol.cur j).type = .free
  ofile : l.files.ofile = k.files.ofile
  cwd : l.cwd = k.cwd

theorem Untouched.unchanged (h : Untouched k.vol l.vol) (hof : l.files.ofile = k.files.ofile)
    (hcwd : l.cwd = k.cwd) : Unchanged k l := by
  refine ⟨fun j hj => (h.files j ?_).table, h.files, fun j => ⟨fun hj => ?_, h.free j⟩, hof, hcwd⟩
  · rw [hj]
    nofun
  · by_contra hne
    exact hne ((h.files j hne).type ▸ hj)

theorem Unchanged.refl (k : Kernel ι) : Unchanged k k :=
  (Untouched.of_same fun j => SameFile.refl j k.vol).unchanged rfl rfl

/-- The name is not there yet, and `create` succeeds. -/
def Kernel.Makes (p : ι) (path : Path) (name : CName) (type : FileType) (k : Kernel ι) : Prop :=
  k.vol.Makes (k.cwd p) path.1 ∧
    Completes (createPath (k.cwd p) path.1 name type) k.vol (fun r _ => r ≠ none)

/-- There is a free file and a free descriptor if the call is to open a file that it makes. -/
def NameCall.Served (p : ι) (name : CName) (k : Kernel ι) : NameCall → Prop
  | .open (some path) omode => omode &&& oCreate ≠ 0 → k.Makes p path name .file →
      k.files.FreeFile ∧ k.files.FreeFd p
  | _ => True

def Kernel.Found (k : Kernel ι) (Q : Nat → Kernel ι → Prop) : Option Nat → Kernel ι → Prop
  | none, l => Unchanged k l
  | some ip, l => Q ip l

/-- The call has a reference to an inode that was there. -/
structure Kernel.Has (k : Kernel ι) (ip : Nat) (l : Kernel ι) : Prop where
  held : Held ip k.vol l.vol
  files : l.files = k.files
  cwd : l.cwd = k.cwd

theorem Made.not_device {v w : Vol} (h : Made v .file ip w) : (w.ip ip).type ≠ .device := by
  rw [← Vol.cur_active h.active, h.type]
  nofun

theorem status_returns {m : V Bool} (hm : Returns m k.vol fun r v => r = false → Untouched k.vol v) :
    Returns (do let done ← inVol m; return status done : K ι Int) k fun r l => r = -1 → Unchanged k l := by
  apply Ensures.bind
  apply Ensures.zoom
  refine hm.post ?_
  rintro (_ | _) v hv
  · exact .pure fun _ => (hv rfl).unchanged rfl rfl
  · exact .pure nofun

section

variable (h : Ready p k) {omode : Nat}

include h

theorem createNode_returns (path : Path) (type : FileType) (major : Int) (name : CName) :
    Returns (createNode p path type major name) k (k.Found fun ip l =>
      k.Has ip l ∨ (k.Makes p path name type ∧ Made k.vol type ip l.vol ∧ l.files = k.files)) := by
  unfold createNode
  apply Ensures.bind_get
  apply Ensures.bind
  apply Ensures.zoom
  refine ((createPath_created h.steady h.idle h.cwd path.2 name type).and (Ensures.self _ _)).imp ?_
    fun _ _ _ => trivial
  rintro (_ | ip) u ⟨hu, hrun⟩
  · exact .pure (hu.unchanged rfl rfl)
  · apply Ensures.bind_modify
    apply Ensures.pure
    obtain ⟨-, hheld⟩ | ⟨hmakes, hmade⟩ := hu
    · exact .inl ⟨hheld, rfl, rfl⟩
    · exact .inr ⟨⟨hmakes, .of_ok hrun (Option.some_ne_none ip)⟩, hmade, rfl⟩

theorem createNode_makes {path : Path} {type : FileType} {name : CName} (hm : k.Makes p path name type)
    (major : Int) : Completes (createNode p path type major name) k fun r l =>
      ∃ ip, r = some ip ∧ Made k.vol type ip l.vol ∧ l.files = k.files := by
  unfold createNode
  apply Ensures.bind_get
  apply Ensures.bind
  apply Ensures.zoom
  refine (hm.2.and (createPath_created h.steady h.idle h.cwd path.2 name type)).imp ?_ fun _ _ hc => hc.1
  rintro (_ | ip) u ⟨hne, hu⟩
  · exact absurd rfl hne
  · apply Ensures.bind_modify
    obtain ⟨hno, -⟩ | ⟨-, hmade⟩ := hu
    · exact absurd hm.1 hno
    · exact .pure ⟨ip, rfl, hmade, rfl⟩

theorem sysMake_returns (path : Option Path) (type : FileType) (major : Int) (name : CName) :
    Returns (sysMake p path type major name) k fun r l => r = -1 → Unchanged k l := by
  cases path with
  | none => exact .pure fun _ => Unchanged.refl k
  | some path =>
    unfold sysMake
    dsimp only
    refine (createNode_returns h path type major name).seq ?_
    rintro (_ | ip) l hl
    · exact .pure fun _ => hl
    · exact (Ensures.any _ _).seq fun _ _ _ => .pure nofun

variable [DecidableEq ι]

theorem openFile_returns (hip : k.Has ip l ∨
      (Made k.vol .file ip l.vol ∧ l.files = k.files ∧ k.files.FreeFile ∧ k.files.FreeFd p)) :
    Returns (openFile p ip omode) l fun r l' => r = -1 → Unchanged k l' := by
  have hfiles : l.files = k.files := hip.elim (·.files) (·.2.1)
  unfold openFile
  apply Ensures.bind_get
  apply Ensures.bind
  apply Ensures.zoom
  refine (Files.sysOpen_slots (hfiles ▸ h.closed) _ omode).returns.post ?_
  rintro (_ | fd) s ⟨hof, hslots⟩
  · apply Ensures.bind
    apply Ensures.zoom
    obtain hhas | ⟨hmade, -, hfree⟩ := hip
    · refine (hhas.held.put h.steady).post fun _ v hv => .pure fun _ => ?_
      exact hv.untouched.unchanged ((hof rfl).trans (congrArg _ hfiles)) hhas.cwd
    · rw [← hfiles] at hfree
      exact absurd hfree ((hslots hmade.not_device).mp rfl)
  · have hfd : ∀ l', Returns (pure (fd.1 : Int) : K ι Int) l' fun r l' => r = -1 → Unchanged k l' := by
      refine fun l' => .pure fun hr => ?_
      omega
    dsimp only
    split
    · exact (Ensures.any _ _).seq fun _ l' _ => hfd l'
    · exact hfd _

/-- Without a free file or a free descriptor the new file stays. -/
theorem openFile_leaves (hmade : Made k.vol .file ip l.vol) (hfiles : l.files = k.files)
    (hfull : ¬(k.files.FreeFile ∧ k.files.FreeFd p)) :
    Completes (openFile p ip omode) l fun r l' => r = -1 ∧ ¬Unchanged k l' := by
  unfold openFile
  apply Ensures.bind_get
  apply Ensures.bind
  apply Ensures.zoom
  refine (Files.sysOpen_slots (hfiles ▸ h.closed) _ omode).post ?_
  rintro r s ⟨-, hslots⟩
  rw [← hfiles] at hfull
  obtain rfl := (hslots hmade.not_device).mpr hfull
  have hlinked := hmade.linked nofun
  rw [Vol.cur_active hmade.active] at hlinked
  apply Ensures.bind
  apply Ensures.zoom
  refine (iput_closed hmade.sound fun hlast => ?_).post fun _ v hv => .pure ⟨rfl, fun hu => ?_⟩
  · exact absurd (hlinked.symm.trans hlast.2.2) (by decide)
  · have hfree := (hu.allocated ip).mpr hmade.was
    rw [show (v.cur ip).type = .file from (hv.cur ip ▸ hmade.type)] at hfree
    cases hfree

theorem sysOpen_returns {path : Option Path} (name : CName)
    (hc : (NameCall.open path omode).Served p name k) :
    Returns (sysOpen p path omode name) k fun r l => r = -1 → Unchanged k l := by
  cases path with
  | none => exact .pure fun _ => Unchanged.refl k
  | some path =>
    have hinode : Returns (openInode p path omode name) k (k.Found fun ip l => k.Has ip l ∨
        (Made k.vol .file ip l.vol ∧ l.files = k.files ∧ k.files.FreeFile ∧ k.files.FreeFd p)) := by
      unfold openInode
      split
      · next hcreate =>
        refine (createNode_returns h path .file 0 name).post ?_
        rintro (_ | ip) l hl
        · exact hl
        · exact hl.imp_right fun hm => ⟨hm.2.1, hm.2.2, hc hcreate hm.1⟩
      · apply Ensures.bind_get
        apply Ensures.zoom
        refine (openFound_held h.steady h.cwd path.2 name omode).post ?_
        rintro (_ | ip) u hu
        · exact hu.unchanged rfl rfl
        · exact .inl ⟨hu, rfl, rfl⟩
    unfold sysOpen
    dsimp only
    refine hinode.seq ?_
    rintro (_ | ip) l hl
    · exact .pure fun _ => hl
    · exact openFile_returns h hl

theorem sysOpen_leaves {path : Path} {name : CName} (hcreate : omode &&& oCreate ≠ 0)
    (hm : k.Makes p path name .file) (hfull : ¬(k.files.FreeFile ∧ k.files.FreeFd p)) :
    Completes (sysOpen p (some path) omode name) k fun r l => r = -1 ∧ ¬Unchanged k l := by
  unfold sysOpen openInode
  dsimp only
  rw [if_pos hcreate]
  refine (createNode_makes h hm 0).seq ?_
  rintro _ l ⟨ip, rfl, hmade, hfiles⟩
  exact openFile_leaves h hmade hfiles hfull

theorem served_calls_change_nothing {c : NameCall} (name : CName) (hc : c.Served p name k) :
    Returns (nameCall p name c) k fun r l => r = -1 → Unchanged k l := by
  cases c with
  | «open» path omode => exact sysOpen_returns h name hc
  | mkdir path => exact sysMake_returns h path .dir 0 name
  | mknod path major minor => exact sysMake_returns h path .device (short major) name
  | link old new =>
    cases old with
    | none => exact .pure fun _ => Unchanged.refl k
    | some old =>
      cases new with
      | none => exact .pure fun _ => Unchanged.refl k
      | some new => exact status_returns (link_untouched h.steady h.short h.cwd old.2 new.2 name)
  | unlink path =>
    cases path with
    | none => exact .pure fun _ => Unchanged.refl k
    | some path => exact status_returns (unlinkPath_untouched h.steady h.cwd path.2 name)
  | chdir path =>
    cases path with
    | none => exact .pure fun _ => Unchanged.refl k
    | some path =>
      apply Ensures.bind_get
      dsimp only
      apply Ensures.bind
      apply Ensures.zoom
      refine (chdirInode_untouched h.steady h.cwd path.2 name).post ?_
      rintro (_ | ip) v hv
      · exact .pure fun _ => (hv rfl).unchanged rfl rfl
      · apply Ensures.bind
        exact .modify (.pure nofun)

end

/-- A call that returns -1 has changed nothing, unless it is to open a file that it makes and there is no
free file or no free descriptor. -/
theorem failed_calls_change_nothing [DecidableEq ι] (h : Ready p k) (c : NameCall) (name : CName) :
    Returns (nameCall p name c) k (fun r l => r = -1 → Unchanged k l) ↔ c.Served p name k := by
  refine ⟨fun hsame => ?_, served_calls_change_nothing h name⟩
  cases c with
  | «open» path omode =>
    cases path with
    | none => trivial
    | some path =>
      intro hcreate hm
      by_contra hfull
      exact (((sysOpen_leaves h hcreate hm hfull).and hsame).imp (fun _ _ hr => hr.1.2 (hr.2 hr.1.1))
        fun _ _ he => he.1).false
  | mkdir | mknod | link | unlink | chdir => trivial

/-- One process, which has opened the root directory sixteen times over; the disk has no other file. -/
def fullKernel : Kernel Unit where
  vol := (freshVol 0).setEntry 1 ⟨2, true, (freshVol 0).dinode 1⟩
  major _ := 0
  files :=
    { file := fun f => if f.1 = 0 then ⟨.inode, 16, true, false, 0, 1, 0⟩ else ⟨.none, 0, false, false, 0, 0, 0⟩
      ofile := fun _ => some ⟨0, by decide⟩
      alive := fun _ => true
      initproc := ()
      freelist := []
      pipe := fun _ => none
      allocs := fun _ => 0
      frees := fun _ => 0 }
  cwd _ := 1

theorem fullKernel_ready : Ready () fullKernel := by
  have hs : Sound none fullKernel.vol := freshVol_wellFormed.setEntry fun _ _ => ⟨rfl, by decide⟩
  have hcur : ∀ i, fullKernel.vol.cur i = if i = 1 then ⟨.dir, 1, 0, fun _ => 0⟩ else Dinode.zero :=
    fun i => hs.cur_eq i
  refine ⟨⟨hs, fun i _ => ?_, fun i ht hn => ?_⟩, fun i ht => ?_, fun i => ?_, by decide, by decide +kernel⟩
  · rw [hcur]
    split_ifs <;> rfl
  · rw [hcur] at ht hn
    split_ifs at ht hn
    · cases hn
    · exact absurd rfl ht
  · rw [hcur] at ht
    split_ifs at ht with hi
    have hother : fullKernel.vol.itable i = (freshVol 0).itable i := update_of_ne hi _ _
    rw [hother]
    rfl
  · rw [hcur]
    split_ifs <;> rfl

def slashX : Path := ⟨[47, 120], by decide⟩

/-- A file that is not there is opened. -/
theorem failed_calls_change_nothing_missing :
    Ensures (nameCall () oneLetter (.open (some slashX) 0)) fullKernel
      (fun r l => r = -1 ∧ Unchanged fullKernel l) (fun _ _ => False) := by
  have hfails : Ensures (nameCall () oneLetter (.open (some slashX) 0)) fullKernel (fun r _ => r = -1)
      (fun _ _ => False) := by decide +kernel
  have hserved : (NameCall.open (some slashX) 0).Served () oneLetter fullKernel := fun hc => absurd rfl hc
  exact (hfails.and ((failed_calls_change_nothing fullKernel_ready _ oneLetter).mpr hserved)).imp
    (fun _ _ hr => ⟨hr.1, hr.2 hr.1⟩) fun _ _ he => he.1

/-- `open` with `O_CREATE` finds no free descriptor and returns -1, but the file that it has made stays. -/
theorem failed_open_leaves_file : ∃ (k : Kernel Unit) (c : NameCall), Ready () k ∧
    Ensures (nameCall () oneLetter c) k (fun r l => r = -1 ∧ ¬Unchanged k l) (fun _ _ => False) := by
  refine ⟨fullKernel, .open (some slashX) 0x201, fullKernel_ready, ?_⟩
  have hmade : Ensures (nameCall () oneLetter (.open (some slashX) 0x201)) fullKernel
      (fun r l => r = -1 ∧ (l.vol.cur 2).type = .file) (fun _ _ => False) := by decide +kernel
  refine hmade.post ?_
  rintro r l ⟨hr, hfile⟩
  refine ⟨hr, fun hu => ?_⟩
  have hfree := (hu.allocated 2).mpr (by decide)
  rw [hfile] at hfree
  cases hfree

end Xv6.Blocks
