import Xv6.FileRefs
import Xv6.Lib.Transition

namespace Xv6.Inodes

open Xv6.Lib Finset LinkGraph Function

variable {ι : Type}

instance (p : ι) (path : List UInt8) (s : State ι) : Decidable (CreateLive p path s) :=
  inferInstanceAs (Decidable (Ensures _ _ _ _))

instance (p : ι) (old : List UInt8) (s : State ι) : Decidable (LinkFits p old s) :=
  inferInstanceAs (Decidable (Ensures _ _ _ _))

instance (p : ι) (old new : List UInt8) (s : State ι) : Decidable (LinkLive p old new s) :=
  inferInstanceAs (Decidable (Ensures _ _ _ _))

instance (s : State ι) (i : Nat) : Decidable (LastUp s i) :=
  inferInstanceAs (Decidable (∀ j, j < s.ninodes → _))

instance (p : ι) (path : List UInt8) (s : State ι) : Decidable (UnlinkSafe p path s) :=
  inferInstanceAs (Decidable (Ensures _ _ _ _))

/-- No directory is made in one without links, and no link count runs over. In `strict` runs nothing at all is
made there; in `safe` runs no directory is removed that is the `..` of another one. -/
def CallOk (strict safe : Prop) (s : State ι) (a : ι × Call ι) : Prop :=
  match a.2 with
  | .mkdir path => CreateLive a.1 path s
  | .mknod path _ => strict → CreateLive a.1 path s
  | .open path omode => strict → omode &&& oCreate ≠ 0 → CreateLive a.1 path s
  | .link old new => LinkFits a.1 old s ∧ (strict → LinkLive a.1 old new s)
  | .unlink path => safe → UnlinkSafe a.1 path s
  | _ => True

instance (strict safe : Prop) [Decidable strict] [Decidable safe] (s : State ι) (a : ι × Call ι) :
    Decidable (CallOk strict safe s a) := by
  unfold CallOk
  split <;> infer_instance

variable {strict safe : Prop} {s t : State ι}

theorem void_ensures {α : Type} {m : F ι α} {E : String → State ι → Prop} {P : State ι → Prop}
    (h : Ensures m s (fun _ t => P t) E) : Ensures (void m) s (fun _ t => P t) E :=
  Ensures.bind (h.post fun _ _ ht => .pure ht)

variable [DecidableEq ι]

/-- A file system with an empty root directory, `init` being the only process. -/
def bootState (n : Nat) (p : ι) : State ι where
  ninodes := n
  inode i := if i = rootino then ⟨.dir, 0, 1, [⟨1, dot, 0⟩, ⟨1, dotdot, 0⟩], 1, false, 0⟩
    else ⟨.free, 0, 0, [], 0, false, 0⟩
  file _ := ⟨0, none⟩
  proc q := if q = p then some ⟨rootino, List.replicate nofile none⟩ else none
  initproc := p
  room _ := true

theorem boot_type (n : Nat) (p : ι) {i : Nat} (h : ((bootState n p).inode i).type ≠ .free) :
    i = rootino := by
  by_contra hi
  simp [bootState, hi] at h

theorem boot_down (n : Nat) (p : ι) (d i : Nat) : (graph (bootState n p)).down d i = 0 := by
  by_cases hd : d = rootino <;> simp [graph, bootState, Inode.links, hd]

theorem boot_links {n : Nat} (hn : 2 ≤ n) (hmax : n ≤ 2 ^ 16) (p : ι) :
    Links strict safe (fun _ => 0) (bootState n p) := by
  have hkind : ∀ i, (graph (bootState n p)).kind i = if i = rootino then .dir else .free := by
    intro i
    by_cases hi : i = rootino <;> simp [graph, bootState, FileType.kind, hi]
  have hin : ∀ i, (graph (bootState n p)).inDeg (range n) i = 0 := fun i =>
    sum_eq_zero fun d _ => boot_down n p d i
  have hkids : ∀ i, (graph (bootState n p)).kids (range n) rootino i = 0 := fun i =>
    kids_eq_zero fun d hd => absurd (hin d) (by have := hd.2.2.2; exact this.ne')
  have hroot : ∀ {i}, (graph (bootState n p)).kind i = .dir → i = rootino := by
    intro i hi
    by_contra hc
    simp [hkind, hc] at hi
  have hlink : ∀ {d i}, ¬ 0 < (graph (bootState n p)).down d i := fun {d i} => by
    rw [boot_down]
    exact lt_irrefl 0
  constructor
  · constructor
    · intro i hi
      have : i = rootino := by
        by_contra hc
        simp [hkind, hc] at hi
      rw [this]
      exact mem_range.mpr hn
    · rw [hkind, if_pos rfl]
    · exact hin rootino
    · rfl
    · exact fun d i hl => absurd hl hlink
    · exact fun d i hl => absurd hl hlink
    · intro i hi
      rw [hkind] at hi
      split at hi <;> cases hi
    · intro _ i hi
      rw [hkind] at hi
      split at hi <;> cases hi
    · intro i hi
      have hi := hroot hi
      subst hi
      show _ = _ + ((graph (bootState n p)).kids (range n) rootino rootino : Int) + _
      rw [hkids]
      rfl
    · intro i _
      show (graph (bootState n p)).inDeg (range n) i ≤ 1
      rw [hin]
      exact Nat.zero_le 1
    · exact fun d i hl => absurd hl hlink
    · exact fun i hi hr => absurd (hroot hi) hr
    · exact fun d hd hr => absurd (hroot hd) hr
    · exact fun _ d hd hr => absurd (hroot hd) hr
    · intro _ d hd
      have hd := hroot hd
      subst hd
      exact ⟨(hkind rootino).trans (if_pos rfl), .inl rfl⟩
    · exact fun _ i hi => absurd (hin i) hi.ne'
  · exact hmax
  · rfl
  · intro d hd
    have : d = rootino := boot_type n p (by rw [hd]; decide)
    subst this
    exact ⟨0, 1, 0, [], rfl, Nat.one_ne_zero, fun e he => absurd he List.not_mem_nil, by decide⟩
  · intro i hi
    rw [boot_type n p hi]
    exact (by decide : (1 : Int) < 2 ^ 15)
  · intro _ d hd e he _
    have : d = rootino := boot_type n p (by rw [hd]; decide)
    subst this
    rcases List.mem_cons.mp he with rfl | he
    · rfl
    · rw [List.mem_singleton.mp he]
      rfl

variable [Fintype ι]

def WellFormed (strict safe : Prop) (s : State ι) : Prop :=
  Inv strict safe (fun _ => 0) (fun _ => 0) (fun _ => 0) s

theorem call_ensures (h : WellFormed strict safe s) {p : ι} (hp : (s.proc p).isSome) (c : Call ι)
    (hok : CallOk strict safe s (p, c)) :
    Ensures (call p c) s (fun _ t => WellFormed strict safe t) (Typed safe) := by
  cases c with
  | mkdir path => exact void_ensures (sysMake_ensures h p path 0 (by decide) fun _ => hok)
  | mknod path major =>
    refine void_ensures (sysMake_ensures h p path _ (by decide) ?_)
    rintro (hs | hc)
    · exact hok hs
    · cases hc
  | «open» path omode => exact void_ensures (sysOpen_ensures h p path omode hok)
  | link old new => exact void_ensures (sysLink_ensures h p old new hok.1 hok.2)
  | unlink path => exact void_ensures (sysUnlink_ensures h p path hok)
  | chdir path => exact void_ensures (sysChdir_ensures h hp path)
  | close fd => exact void_ensures (sysClose_ensures h p fd)
  | fork child => exact void_ensures (kfork_ensures h p child)
  | exit => exact kexit_ensures h hp

theorem callStep_wellFormed (h : WellFormed strict safe s) {a : ι × Call ι}
    (hok : CallOk strict safe s a) (hstep : callStep s a = some t) : WellFormed strict safe t := by
  unfold callStep at hstep
  split at hstep
  · rename_i hp
    have hcall := call_ensures h hp a.2 hok
    cases hc : call a.1 a.2 s with
    | ok x u =>
      rw [hc] at hstep
      cases hstep
      exact hcall.ok hc
    | error e u =>
      rw [hc] at hstep
      cases hstep
  · cases hstep

theorem run_wellFormed (h : WellFormed strict safe s) {as : List (ι × Call ι)}
    (hr : Run callStep (CallOk strict safe) s as t) : WellFormed strict safe t :=
  hr.invariant (fun _ _ _ h hok hs => callStep_wellFormed h hok hs) h

theorem boot_refs (n : Nat) (p : ι) : Refs safe (fun _ => 0) (fun _ => 0) (bootState n p) := by
  have hfd : ∀ f, total (fdRefs f) (bootState n p).proc = 0 := by
    intro f
    refine (total_eq_zero _ _).mpr fun q => ?_
    by_cases hq : q = p
    · simp [bootState, hq, fdRefs, List.count_replicate]
    · simp [bootState, hq, fdRefs]
  have hhold : ∀ i, holders (bootState n p) i = if i = rootino then 1 else 0 := by
    intro i
    have hfile : total (fileRefs i) (bootState n p).file = 0 := (total_eq_zero _ _).mpr fun _ => rfl
    have hcwd : total (cwdRefs i) (bootState n p).proc = if i = rootino then 1 else 0 := by
      have hall : (bootState n p).proc =
          update (fun _ => none) p (some ⟨rootino, List.replicate nofile none⟩) := by
        funext q
        by_cases hq : q = p
        · simp [bootState, hq]
        · simp [bootState, hq]
      have hsum := total_update (cwdRefs i) (fun _ : ι => none) p
        (some ⟨rootino, List.replicate nofile none⟩)
      rw [← hall] at hsum
      have hnone : total (cwdRefs i) (fun _ : ι => none) = 0 := (total_eq_zero _ _).mpr fun _ => rfl
      simp only [hnone, cwdRefs, zero_add, add_zero] at hsum
      rw [hsum]
      by_cases hi : i = rootino
      · rw [if_pos hi, if_pos hi.symm]
      · rw [if_neg hi, if_neg (Ne.symm hi)]
    rw [holders, hfile, hcwd, add_zero]
  constructor
  · intro q pr hq
    by_cases hqp : q = p
    · simp only [bootState, hqp, if_true, Option.some.injEq] at hq
      rw [← hq]
      exact List.length_replicate
    · simp [bootState, hqp] at hq
  · intro f
    rw [hfd]
    rfl
  · exact fun _ _ => rfl
  · intro i
    rw [hhold]
    by_cases hi : i = rootino <;> simp [bootState, hi]
  · intro i hv
    by_cases hi : i = rootino <;> simp [bootState, hi] at hv
  · intro i hi
    have hroot : i = rootino := by
      by_contra hc
      rw [hhold, if_neg hc] at hi
      rcases hi with hi | ⟨-, hi⟩
      · exact absurd hi (lt_irrefl 0)
      · simp [bootState, hc] at hi
    rw [hroot]
    exact (by decide : FileType.dir ≠ .free)

theorem boot_wellFormed {n : Nat} (hn : 2 ≤ n) (hmax : n ≤ 2 ^ 16) (p : ι) :
    WellFormed strict safe (bootState n p) :=
  ⟨boot_links hn hmax p, boot_refs n p⟩

end Xv6.Inodes
