import Xv6.NameSpace

namespace Xv6.Inodes

open Xv6.Lib

section Sound

variable {ι : Type} {s t : State ι}

/-- Every entry of every directory names an allocated inode, in the incarnation that it was made
for. -/
def EntriesSound (s : State ι) : Prop :=
  ∀ d e, (s.inode d).type = .dir → e ∈ (s.inode d).ents → e.inum ≠ 0 →
    (s.inode e.inum).type ≠ .free ∧ e.gen = (s.inode e.inum).gen

def lookup (p : ι) (path : List UInt8) (parent : Bool) : F ι Unit := do
  match ← namex p path parent with
  | none => pure ()
  | some (i, _) => ilock i

theorem entriesSound_of_links {strict : Prop} {pend : Nat → Nat} (h : Links strict True pend s) :
    EntriesSound s :=
  fun d e hd he h0 => ⟨h.entry_node trivial hd he h0, h.gen trivial d hd e he h0⟩

variable [Fintype ι]

theorem lookup_ensures {strict safe : Prop} (h : WellFormed strict safe s) (p : ι) (path : List UInt8)
    (parent : Bool) : Ensures (lookup p path parent) s (fun _ _ => True) (Typed safe) := by
  unfold lookup
  refine (namex_ensures h p path parent).seq fun r t ht => ?_
  cases r with
  | none => exact .pure trivial
  | some x =>
    obtain ⟨i, name⟩ := x
    obtain ⟨-, -, ht, -⟩ := ht
    exact (ilock_ensures ht (ref_pos ht)).post fun _ _ _ => trivial

variable [DecidableEq ι]

/-- As long as no directory is removed that is the `..` of another one, none is made in an unlinked one and no
link count runs over, no lookup or call meets a free inode. -/
theorem entries_never_dangle (h : WellFormed False True s) {as : List (ι × Call ι)}
    (hr : Run callStep (CallOk False True) s as t) :
    EntriesSound t ∧
    (∀ p path parent e u, lookup p path parent t = .error e u → e ≠ "ilock: no type") ∧
    ∀ p c e u, (t.proc p).isSome → CallOk False True t (p, c) → call p c t = .error e u →
      e ≠ "ilock: no type" := by
  have ht := run_wellFormed h hr
  refine ⟨entriesSound_of_links ht.links, ?_, ?_⟩
  · intro p path parent e u hrun
    exact ((lookup_ensures ht p path parent).error hrun).2 trivial
  · intro p c e u hp hok hrun
    exact ((call_ensures ht hp c hok).error hrun).2 trivial

end Sound

def tidyCalls : List (Bool × Call Bool) :=
  [(false, .mkdir [97]), (false, .mkdir [97, 47, 98]), (false, .chdir [97, 47, 98]),
    (false, .fork true), (true, .unlink [46, 46, 47, 98]), (true, .open [47, 102] 0x202),
    (true, .link [47, 102] [47, 97, 47, 103]), (true, .unlink [47, 102]), (true, .close 0),
    (true, .exit), (false, .chdir [46, 46])]

theorem entries_never_dangle_tidyCalls :
    ∃ t : State Bool, Run callStep (CallOk False True) (bootState 8 false) tidyCalls t ∧ EntriesSound t := by
  have hr : (outcome callStep (CallOk False True) (bootState 8 false) tidyCalls).isSome = true := by
    decide +kernel
  exact ⟨_, Run.of_outcome hr,
    (entries_never_dangle (boot_wellFormed (by decide) (by decide) false) (Run.of_outcome hr)).1⟩

/-- Make `/a` and `/a/b`, go to `/a/b`, remove it from there and then remove `/a`. -/
def orphanCalls : List (Unit × Call Unit) :=
  [((), .mkdir [97]), ((), .mkdir [97, 47, 98]), ((), .chdir [97, 47, 98]),
    ((), .unlink [46, 46, 47, 98]), ((), .unlink [47, 97])]

def Panics (p : Unit) (c : Call Unit) (msg : String) (s : State Unit) : Prop :=
  match call p c s with
  | .ok _ _ => False
  | .error e _ => e = msg

instance (p : Unit) (c : Call Unit) (msg : String) (s : State Unit) : Decidable (Panics p c msg s) := by
  unfold Panics
  split <;> infer_instance

/-- The current directory is removed, then its parent; its `..` names a free inode. -/
theorem orphan_dangles : WellFormed False True (bootState 8 ()) ∧
    ∃ t, Run callStep (fun _ _ => True) (bootState 8 ()) orphanCalls t ∧
      (∃ pr ∈ t.proc (), (t.inode pr.cwd).type = .dir ∧ (t.inode (t.inode pr.cwd).up).type = .free) ∧
      Panics () (.chdir [46, 46]) "ilock: no type" t :=
  ⟨boot_wellFormed (by decide) (by decide) (), Run.exists_of_outcome (by decide +kernel)⟩

end Xv6.Inodes
