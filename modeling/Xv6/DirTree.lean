import Mathlib.Order.Interval.Finset.Nat
import Mathlib.Tactic.Push
import Xv6.Inodes
import Xv6.Lib.Ensures
import Xv6.Lib.LinkGraphSteps

namespace Xv6.Inodes

open Xv6.Lib Finset Function

variable {ι : Type} {a : FileType}

def FileType.kind : FileType → Kind
  | .free => .free
  | .dir => .dir
  | .file => .leaf
  | .device => .leaf

def Inode.up (n : Inode) : Nat := (n.ents.getD 1 .zero).inum

def Inode.links (n : Inode) (i : Nat) : Nat :=
  if n.type = .dir ∧ i ≠ 0 then (n.ents.drop 2).countP fun e => e.inum = i else 0

def graph (s : State ι) : LinkGraph Nat where
  kind i := (s.inode i).type.kind
  up i := (s.inode i).up
  down d i := (s.inode d).links i
  nlink i := (s.inode i).nlink

/-- A directory starts with its entries `.` and `..`, which occur nowhere else in it. -/
def Shape (d : Nat) (ents : List Dirent) : Prop :=
  ∃ g i h rest, ents = ⟨d, dot, g⟩ :: ⟨i, dotdot, h⟩ :: rest ∧ i ≠ 0 ∧
    (∀ e ∈ rest, e.inum ≠ 0 → e.name ≠ dot ∧ e.name ≠ dotdot) ∧
    (rest.length + 2) * direntSize ≤ maxfile * bsize

/-- Entries and link counts agree, `pend i` links to `i` being counted that are not there. -/
structure Links (strict safe : Prop) (pend : Nat → Nat) (s : State ι) : Prop where
  tree : (graph s).Ok (range s.ninodes) rootino strict safe pend
  ninodes : s.ninodes ≤ 2 ^ 16
  zero : (s.inode 0).type = .free
  shape : ∀ d, (s.inode d).type = .dir → Shape d (s.inode d).ents
  nlink_le : ∀ i, (s.inode i).type ≠ .free → (s.inode i).nlink < 2 ^ 15
  gen : safe → ∀ d, (s.inode d).type = .dir → ∀ e ∈ (s.inode d).ents, e.inum ≠ 0 →
    e.gen = (s.inode e.inum).gen

/-- The number of references to inode `i` that current directories and open files hold. -/
def cwdRefs (i : Nat) : Option Proc → Nat
  | none => 0
  | some pr => if pr.cwd = i then 1 else 0

def fileRefs (i : Nat) (f : File) : Nat := if f.ip = some i then 1 else 0

def fdRefs (f : Fin nfile) : Option Proc → Nat
  | none => 0
  | some pr => pr.ofile.count (some f)

variable [Fintype ι]

def holders (s : State ι) (i : Nat) : Nat := total (cwdRefs i) s.proc + total (fileRefs i) s.file

/-- Reference counts agree with who holds references, a running call holding those in `extra` and `opens`. -/
structure Refs (safe : Prop) (extra : Nat → Nat) (opens : Fin nfile → Nat) (s : State ι) : Prop where
  fds : ∀ p pr, s.proc p = some pr → pr.ofile.length = nofile
  files : ∀ f, (s.file f).ref = total (fdRefs f) s.proc + opens f
  idle : ∀ f, (s.file f).ref = 0 → (s.file f).ip = none
  count : ∀ i, (s.inode i).ref = holders s i + extra i
  valid : ∀ i, (s.inode i).valid = true → 0 < (s.inode i).ref → (s.inode i).type ≠ .free
  held : ∀ i, 0 < holders s i ∨ safe ∧ 0 < (s.inode i).ref → (s.inode i).type ≠ .free

structure Inv (strict safe : Prop) (pend extra : Nat → Nat) (opens : Fin nfile → Nat) (s : State ι) :
    Prop where
  links : Links strict safe pend s
  refs : Refs safe extra opens s

omit [Fintype ι]

variable {strict safe : Prop} {pend : Nat → Nat} {s t : State ι} {d i : Nat}

theorem FileType.kind_free : a.kind = .free ↔ a = .free := by
  cases a <;> simp [kind]

theorem FileType.kind_dir : a.kind = .dir ↔ a = .dir := by
  cases a <;> simp [kind]

theorem FileType.kind_leaf (hf : a ≠ .free) (hd : a ≠ .dir) : a.kind = .leaf := by
  cases a <;> simp_all [kind]

theorem links_pos {n : Inode} :
    0 < n.links i ↔ n.type = .dir ∧ i ≠ 0 ∧ ∃ e ∈ n.ents.drop 2, e.inum = i := by
  unfold Inode.links
  split
  · rename_i h
    simp [h, List.countP_pos_iff]
  · rename_i h
    simp only [lt_self_iff_false, false_iff]
    tauto

theorem Shape.entry {n : Inode} (h : Shape d n.ents) (hd : n.type = .dir) {e : Dirent}
    (he : e ∈ n.ents) (h0 : e.inum ≠ 0) : e.inum = d ∨ e.inum = n.up ∨ 0 < n.links e.inum := by
  obtain ⟨g, i, k, rest, heq, -, -, -⟩ := h
  rw [heq] at he
  rcases List.mem_cons.mp he with rfl | he
  · exact .inl rfl
  rcases List.mem_cons.mp he with rfl | he
  · exact .inr (.inl (by simp [Inode.up, heq]))
  · refine .inr (.inr (links_pos.mpr ⟨hd, h0, e, ?_, rfl⟩))
    rw [heq]
    exact he

theorem Links.entry_node (h : Links strict safe pend s) (hs : safe)
    (hd : (s.inode d).type = .dir) {e : Dirent} (he : e ∈ (s.inode d).ents) (h0 : e.inum ≠ 0) :
    (s.inode e.inum).type ≠ .free := by
  rcases (h.shape d hd).entry hd he h0 with hi | hi | hi
  · rw [hi, hd]
    exact nofun
  · have hup : (graph s).kind (s.inode d).up = .dir :=
      (h.tree.up_linked hs d (FileType.kind_dir.mpr hd)).1
    rw [hi, FileType.kind_dir.mp hup]
    exact nofun
  · exact fun hc => h.tree.to_node d _ hi (FileType.kind_free.mpr hc)

structure SameDisk (s t : State ι) : Prop where
  ninodes : t.ninodes = s.ninodes
  type : ∀ i, (t.inode i).type = (s.inode i).type
  nlink : ∀ i, (t.inode i).nlink = (s.inode i).nlink
  ents : ∀ i, (t.inode i).ents = (s.inode i).ents
  gen : ∀ i, (t.inode i).gen = (s.inode i).gen

theorem SameDisk.graph (h : SameDisk s t) : graph t = graph s := by
  simp only [Inodes.graph, Inode.up, Inode.links, h.type, h.nlink, h.ents]

theorem Links.congr (h : Links strict safe pend s) (hst : SameDisk s t) : Links strict safe pend t where
  tree := by
    rw [hst.graph, hst.ninodes]
    exact h.tree
  ninodes := hst.ninodes ▸ h.ninodes
  zero := (hst.type 0).trans h.zero
  shape d hd := by
    rw [hst.ents]
    exact h.shape d (hst.type d ▸ hd)
  nlink_le i hi := by
    rw [hst.nlink]
    exact h.nlink_le i (hst.type i ▸ hi)
  gen hs d hd e he h0 := by
    rw [hst.gen]
    exact h.gen hs d (hst.type d ▸ hd) e (hst.ents d ▸ he) h0

@[simp]
theorem set_inode_self (s : State ι) (i : Nat) (n : Inode) : (s.set i n).inode i = n :=
  update_self ..

theorem set_inode_of_ne (s : State ι) {j : Nat} (n : Inode) (h : j ≠ i) :
    (s.set i n).inode j = s.inode j :=
  update_of_ne h ..

theorem set_same {β : Type} (f : Inode → β) {n : Inode} (h : f n = f (s.inode i)) (j : Nat) :
    f ((s.set i n).inode j) = f (s.inode j) := by
  by_cases hj : j = i
  · rw [hj, set_inode_self, h]
  · rw [set_inode_of_ne s n hj]

theorem SameDisk.set {n : Inode} (h1 : n.type = (s.inode i).type)
    (h2 : n.nlink = (s.inode i).nlink) (h3 : n.ents = (s.inode i).ents) (h4 : n.gen = (s.inode i).gen) :
    SameDisk s (s.set i n) :=
  ⟨rfl, set_same Inode.type h1, set_same Inode.nlink h2, set_same Inode.ents h3, set_same Inode.gen h4⟩

end Xv6.Inodes
