import Xv6.DirTreeSteps

namespace Xv6.Inodes

open Xv6.Lib Finset LinkGraph

variable {ι : Type} {strict safe : Prop} {pend extra : Nat → Nat}
  {opens : Fin nfile → Nat} {s t : State ι} {i : Nat} {E : String → State ι → Prop}

structure Frame (s t : State ι) : Prop where
  proc : t.proc = s.proc
  file : t.file = s.file
  initproc : t.initproc = s.initproc
  ninodes : t.ninodes = s.ninodes

theorem Frame.refl (s : State ι) : Frame s s := ⟨rfl, rfl, rfl, rfl⟩

theorem Frame.trans {u : State ι} (h : Frame s t) (h' : Frame t u) : Frame s u :=
  ⟨h'.proc.trans h.proc, h'.file.trans h.file, h'.initproc.trans h.initproc, h'.ninodes.trans h.ninodes⟩

theorem frame_set (s : State ι) (i : Nat) (n : Inode) : Frame s (s.set i n) := ⟨rfl, rfl, rfl, rfl⟩

def Kept (extra : Nat → Nat) (s t : State ι) : Prop :=
  ∀ i, 0 < extra i → (t.inode i).type = (s.inode i).type

theorem SameDisk.kept (h : SameDisk s t) (extra : Nat → Nat) : Kept extra s t := fun i _ => h.type i

theorem Kept.trans {u : State ι} (h : Kept extra s t) (h' : Kept extra t u) : Kept extra s u :=
  fun i hi => (h' i hi).trans (h i hi)

theorem dirlookup_found {ents : List Dirent} {name : Name} {off : Nat}
    (h : (ents.findIdx? fun e => e.inum ≠ 0 ∧ e.name = name) = some off) :
    ∃ e, ents[off]? = some e ∧ e ∈ ents ∧ (ents.getD off .zero).inum = e.inum ∧ e.inum ≠ 0 ∧ e.name = name := by
  obtain ⟨hlt, hp, -⟩ := List.findIdx?_eq_some_iff_getElem.mp h
  rw [decide_eq_true_eq] at hp
  refine ⟨ents[off], List.getElem?_eq_getElem hlt, List.getElem_mem hlt, ?_, hp⟩
  rw [List.getD_eq_getElem?_getD, List.getElem?_eq_getElem hlt, Option.getD_some]

variable [Fintype ι]

/-- No path lookup runs out of fuel, and no computation of a safe file system stops because it locks
a free inode. -/
def Typed (safe : Prop) (e : String) (_ : State ι) : Prop :=
  e ≠ "out of fuel" ∧ (safe → e ≠ "ilock: no type")

theorem bump_comm (extra : Nat → Nat) (i j : Nat) : bump (bump extra i) j = bump (bump extra j) i := by
  funext k
  simp only [bump_apply]
  omega

theorem Refs.set (h : Refs safe extra opens s) {n : Inode} {q : Nat → Nat}
    (hcount : n.ref + extra i = (s.inode i).ref + q i) (hq : ∀ j, j ≠ i → q j = extra j)
    (hvalid : n.valid = true → 0 < n.ref → n.type ≠ .free)
    (hheld : 0 < holders s i ∨ safe ∧ 0 < n.ref → n.type ≠ .free) : Refs safe q opens (s.set i n) := by
  constructor
  · exact h.fds
  · exact h.files
  · exact h.idle
  · intro j
    show _ = holders s j + q j
    obtain rfl | hj := eq_or_ne j i
    · rw [set_inode_self]
      have := h.count j
      omega
    · rw [set_inode_of_ne s n hj, hq j hj]
      exact h.count j
  · intro j
    obtain rfl | hj := eq_or_ne j i
    · rw [set_inode_self]
      exact hvalid
    · rw [set_inode_of_ne s n hj]
      exact h.valid j
  · intro j
    obtain rfl | hj := eq_or_ne j i
    · rw [set_inode_self]
      exact hheld
    · rw [set_inode_of_ne s n hj]
      exact h.held j

theorem Refs.hold (h : Refs safe extra opens s) {n : Inode} (hr : n.ref = (s.inode i).ref + 1)
    (ht : n.type = (s.inode i).type) (hv : n.valid = true → (s.inode i).valid = true ∧ 0 < (s.inode i).ref)
    (hnode : safe → (s.inode i).type ≠ .free) : Refs safe (bump extra i) opens (s.set i n) := by
  refine h.set ?_ (fun j hj => bump_of_ne extra hj) ?_ ?_
  · rw [bump_self]
    omega
  · intro hn _
    rw [ht]
    exact h.valid i (hv hn).1 (hv hn).2
  · rintro (hh | ⟨hs, -⟩)
    · rw [ht]
      exact h.held i (.inl hh)
    · rw [ht]
      exact hnode hs

theorem iget_ensures (h : Inv strict safe pend extra opens s) (hnode : safe → (s.inode i).type ≠ .free) :
    Ensures (iget i) s (fun _ t => Inv strict safe pend (bump extra i) opens t ∧ SameDisk s t ∧ Frame s t)
      (Typed safe) := by
  unfold iget
  apply Ensures.bind_get
  dsimp only
  split
  · rename_i hr
    apply Ensures.set
    have hd : SameDisk s (s.set i { s.inode i with ref := (s.inode i).ref + 1 }) :=
      SameDisk.set rfl rfl rfl rfl
    exact ⟨⟨h.links.congr hd, h.refs.hold rfl rfl (fun hv => ⟨hv, hr⟩) hnode⟩, hd, frame_set ..⟩
  · rename_i hr
    split
    · exact .throw ⟨by decide, fun _ => by decide⟩
    · apply Ensures.set
      have hd : SameDisk s (s.set i { s.inode i with ref := 1, valid := false }) :=
        SameDisk.set rfl rfl rfl rfl
      refine ⟨⟨h.links.congr hd, h.refs.hold ?_ rfl nofun hnode⟩, hd, frame_set ..⟩
      show 1 = (s.inode i).ref + 1
      omega

theorem idup_ensures (h : Inv strict safe pend extra opens s) (hr : 0 < (s.inode i).ref)
    (hnode : safe → (s.inode i).type ≠ .free) :
    Ensures (idup i) s (fun _ t => Inv strict safe pend (bump extra i) opens t ∧ SameDisk s t ∧ Frame s t) E := by
  apply Ensures.modify
  have hd : SameDisk s (s.set i { s.inode i with ref := (s.inode i).ref + 1 }) :=
    SameDisk.set rfl rfl rfl rfl
  exact ⟨⟨h.links.congr hd, h.refs.hold rfl rfl (fun hv => ⟨hv, hr⟩) hnode⟩, hd, frame_set ..⟩

theorem ref_pos (h : Inv strict safe pend (bump extra i) opens s) : 0 < (s.inode i).ref := by
  have := h.refs.count i
  rw [bump_self] at this
  omega

theorem ilock_ensures (h : Inv strict safe pend extra opens s) (hr : 0 < (s.inode i).ref) :
    Ensures (ilock i) s (fun _ t => Inv strict safe pend extra opens t ∧ SameDisk s t ∧ Frame s t ∧
      (t.inode i).type ≠ .free) (Typed safe) := by
  unfold ilock
  apply Ensures.bind_get
  dsimp only
  split
  · exact .throw ⟨by decide, fun _ => by decide⟩
  split
  · rename_i hv
    exact .pure ⟨h, ⟨rfl, fun _ => rfl, fun _ => rfl, fun _ => rfl, fun _ => rfl⟩, Frame.refl s,
      h.refs.valid i hv hr⟩
  · apply Ensures.bind_set
    split
    · rename_i hfree
      exact .throw ⟨by decide, fun hs => absurd hfree (h.refs.held i (.inr ⟨hs, hr⟩))⟩
    · rename_i htype
      have hd : SameDisk s (s.set i { s.inode i with valid := true }) := SameDisk.set rfl rfl rfl rfl
      apply Ensures.pure
      refine ⟨⟨h.links.congr hd, h.refs.set rfl (fun _ _ => rfl) (fun _ _ => htype) (fun _ => htype)⟩,
        hd, frame_set .., ?_⟩
      rw [set_inode_self]
      exact htype

theorem le_bump (extra : Nat → Nat) (i j : Nat) : extra j ≤ bump extra i j := by
  rw [bump_apply]
  omega

omit [Fintype ι] in
theorem Kept.weaken (h : Kept (bump extra i) s t) : Kept extra s t :=
  fun j hj => h j (lt_of_lt_of_le hj (le_bump extra i j))

theorem iput_ensures (h : Inv strict safe pend (bump extra i) opens s) :
    Ensures (iput i) s (fun _ t => Inv strict safe pend extra opens t ∧ Frame s t ∧ Kept extra s t ∧
      ∀ j, j ≠ i → t.inode j = s.inode j) E := by
  apply Ensures.modify
  have hcount := h.refs.count i
  rw [bump_self] at hcount
  have hq : ∀ j, j ≠ i → extra j = bump extra i j := fun j hj => (bump_of_ne extra hj).symm
  dsimp only
  split
  · rename_i hlast
    refine ⟨⟨h.links.setFree rfl (.inr hlast.2.2), h.refs.set ?_ hq nofun ?_⟩, frame_set .., ?_,
      fun j hj => set_inode_of_ne s _ hj⟩
    · rw [bump_self]
      show (s.inode i).ref - 1 + _ = _
      omega
    · rintro (hh | ⟨-, hr⟩)
      · omega
      · have hr : 0 < (s.inode i).ref - 1 := hr
        omega
    · intro j hj
      have hji : j ≠ i := by
        rintro rfl
        omega
      rw [set_inode_of_ne s _ hji]
  · have hd : SameDisk s (s.set i { s.inode i with ref := (s.inode i).ref - 1 }) :=
      SameDisk.set rfl rfl rfl rfl
    refine ⟨⟨h.links.congr hd, h.refs.set ?_ hq ?_ ?_⟩, frame_set .., hd.kept extra,
      fun j hj => set_inode_of_ne s _ hj⟩
    · rw [bump_self]
      show (s.inode i).ref - 1 + _ = _
      omega
    · exact fun hv _ => h.refs.valid i hv (by omega)
    · exact fun hh => h.refs.held i (hh.imp_right fun hh => ⟨hh.1, by omega⟩)

def Found (s : State ι) (dp : Nat) (name : Name) (i off : Nat) : Prop :=
  ∃ e, (s.inode dp).ents[off]? = some e ∧ e.inum = i ∧ i ≠ 0 ∧ e.name = name

theorem dirlookup_ensures (h : Inv strict safe pend extra opens s) {dp : Nat} (hd : (s.inode dp).type = .dir)
    (name : Name) :
    Ensures (dirlookup dp name) s (fun r t => match r with
      | none => t = s ∧ ∀ e ∈ (s.inode dp).ents, e.inum ≠ 0 → e.name ≠ name
      | some (i, off) => Inv strict safe pend (bump extra i) opens t ∧ SameDisk s t ∧ Frame s t ∧
          Found s dp name i off) (Typed safe) := by
  unfold dirlookup
  apply Ensures.bind_get
  simp only [hd, ne_eq, not_true_eq_false, if_false]
  cases hf : (s.inode dp).ents.findIdx? fun e => e.inum ≠ 0 ∧ e.name = name with
  | none =>
    simp only [ne_eq] at hf
    simp only
    refine .pure ⟨rfl, fun e he h0 hname => ?_⟩
    have := List.findIdx?_eq_none_iff.mp hf e he
    simp [h0, hname] at this
  | some off =>
    obtain ⟨e, hget, hmem, hi, h0, hname⟩ := dirlookup_found hf
    simp only [ne_eq] at hf
    simp only
    rw [hi]
    refine (iget_ensures h fun hs => h.links.entry_node hs hd hmem h0).seq fun _ t ht => ?_
    exact .pure ⟨ht.1, ht.2.1, ht.2.2, e, hget, rfl, h0, hname⟩

/-- The result of a path lookup: a reference to an inode, which for the parent of a path is a
directory. -/
def Resolved (strict safe : Prop) (pend extra : Nat → Nat) (opens : Fin nfile → Nat) (parent : Bool)
    (s : State ι) (r : Option (Nat × Name)) (t : State ι) : Prop :=
  Frame s t ∧ Kept extra s t ∧ match r with
    | none => Inv strict safe pend extra opens t
    | some (i, _) => Inv strict safe pend (bump extra i) opens t ∧ (parent = true → (t.inode i).type = .dir)

theorem skipelem_length {path rest : List UInt8} {name : Name} (h : skipelem path = some (name, rest)) :
    rest.length < path.length := by
  unfold skipelem at h
  cases hp : path.dropWhile (· = slash) with
  | nil => simp [hp] at h
  | cons b bs =>
    have hb : ¬ b = slash := by
      have := List.head?_dropWhile_not (fun x : UInt8 => decide (x = slash)) path
      simpa [hp] using this
    have hlen : (b :: bs).length ≤ path.length := hp ▸ (List.dropWhile_suffix _).length_le
    rw [hp] at h
    simp only [Option.some.injEq, Prod.mk.injEq] at h
    rw [← h.2, List.dropWhile_cons_of_pos (by simpa using hb)]
    refine lt_of_le_of_lt ?_ hlen
    exact (List.dropWhile_suffix _).length_le.trans (List.dropWhile_suffix _).length_le

theorem namexLoop_ensures (parent : Bool) {fuel : Nat} {ip : Nat} (name : Name) {path : List UInt8}
    (hfuel : path.length < fuel) (h : Inv strict safe pend (bump extra ip) opens s) :
    Ensures (namexLoop parent fuel ip name path) s (Resolved strict safe pend extra opens parent s)
      (Typed safe) := by
  induction fuel generalizing s ip name path with
  | zero => exact absurd hfuel (Nat.not_lt_zero _)
  | succ fuel ih =>
    unfold namexLoop
    cases hskip : skipelem path with
    | none =>
      cases parent with
      | true =>
        exact (iput_ensures h).seq fun _ t ht => .pure ⟨ht.2.1, ht.2.2.1, ht.1⟩
      | false => exact .pure ⟨Frame.refl s, fun _ _ => rfl, h, nofun⟩
    | some nr =>
      obtain ⟨elem, rest⟩ := nr
      refine (ilock_ensures h (ref_pos h)).seq fun _ t ⟨ht, hd, hf, _⟩ => ?_
      have hk := hd.kept extra
      apply Ensures.bind_get
      split
      · exact (iput_ensures ht).seq fun _ u hu => .pure ⟨hf.trans hu.2.1, hk.trans hu.2.2.1, hu.1⟩
      rename_i hdir
      rw [ne_eq, not_not] at hdir
      split
      · exact .pure ⟨hf, hk, ht, fun _ => hdir⟩
      refine (dirlookup_ensures ht hdir elem).seq fun r u hu => ?_
      cases r with
      | none =>
        obtain ⟨rfl, -⟩ := hu
        exact (iput_ensures ht).seq fun _ v hv => .pure ⟨hf.trans hv.2.1, hk.trans hv.2.2.1, hv.1⟩
      | some x =>
        obtain ⟨next, off⟩ := x
        obtain ⟨hu, hdu, hfu, -⟩ := hu
        apply Ensures.bind
        rw [bump_comm] at hu
        refine (iput_ensures hu).post fun _ v hv => ?_
        have hrest := skipelem_length hskip
        refine (ih elem (by omega) hv.1).post fun r w hw => ?_
        exact ⟨(hf.trans hfu).trans (hv.2.1.trans hw.1),
          (hk.trans (hdu.kept extra)).trans (hv.2.2.1.weaken.trans hw.2.1), hw.2.2⟩

theorem cwd_held (s : State ι) {p : ι} {pr : Proc} (hp : s.proc p = some pr) : 0 < holders s pr.cwd := by
  have := le_total (cwdRefs pr.cwd) s.proc p
  rw [hp] at this
  simp only [cwdRefs, if_true] at this
  unfold holders
  omega

theorem namex_ensures (h : Inv strict safe pend extra opens s) (p : ι) (path : List UInt8) (parent : Bool) :
    Ensures (namex p path parent) s (Resolved strict safe pend extra opens parent s) (Typed safe) := by
  unfold namex
  apply Ensures.bind_get
  cases hp : s.proc p with
  | none => exact .pure ⟨Frame.refl s, fun _ _ => rfl, h⟩
  | some pr =>
    simp only
    split
    · apply Ensures.bind
      have hroot : (s.inode rootino).type ≠ .free := by
        rw [FileType.kind_dir.mp h.links.tree.root_dir]
        exact nofun
      refine (iget_ensures h fun _ => hroot).post fun _ t ⟨ht, hd, hf⟩ => ?_
      exact (namexLoop_ensures parent _ (Nat.lt_succ_self _) ht).post fun r u hu =>
        ⟨hf.trans hu.1, (hd.kept extra).trans hu.2.1, hu.2.2⟩
    · apply Ensures.bind
      have hheld := cwd_held s hp
      have hpos : 0 < (s.inode pr.cwd).ref := by
        have := h.refs.count pr.cwd
        omega
      refine (idup_ensures h hpos fun _ => h.refs.held _ (.inl hheld)).post fun _ t ⟨ht, hd, hf⟩ => ?_
      exact (namexLoop_ensures parent _ (Nat.lt_succ_self _) ht).post fun r u hu =>
        ⟨hf.trans hu.1, (hd.kept extra).trans hu.2.1, hu.2.2⟩

end Xv6.Inodes
