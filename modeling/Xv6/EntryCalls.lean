import Xv6.FileCalls
import Xv6.InodeRefs

namespace Xv6.Inodes

open Xv6.Lib Finset LinkGraph Function

variable {ι : Type} {strict safe : Prop} {pend extra : Nat → Nat}
  {opens : Fin nfile → Nat} {s t : State ι} {d dp i ip off : Nat} {E : String → State ι → Prop}
  {name : Name}

theorem Links.nlink_nonneg (h : Links strict safe pend s) (hi : (s.inode i).type ≠ .free) :
    (pend i : Int) ≤ (s.inode i).nlink := by
  by_cases hd : (s.inode i).type = .dir
  · have : (s.inode i).nlink = (if i = rootino then 1 else (graph s).inDeg (range s.ninodes) i) +
        (graph s).kids (range s.ninodes) rootino i + pend i := h.tree.dir i (FileType.kind_dir.mpr hd)
    split at this <;> omega
  · have : ((graph s).inDeg (range s.ninodes) i + pend i : Int) ≤ (s.inode i).nlink :=
      h.tree.leaf i (FileType.kind_leaf hi hd)
    omega

def State.withRoom (s : State ι) (room : Nat → Bool) : State ι := { s with room := room }

def Linked (s : State ι) (dp : Nat) (e : Dirent) (r : Bool) (t : State ι) : Prop :=
  ∃ room, if r then
      (freeSlot (s.inode dp).ents + 1) * direntSize ≤ maxfile * bsize ∧
        t = (s.withRoom room).set dp { s.inode dp with ents := addEntry (s.inode dp).ents e }
    else
      t = s.withRoom room

theorem writeEntry_ensures (s : State ι) (dp : Nat) (e : Dirent) :
    Ensures (writeEntry dp (freeSlot (s.inode dp).ents) e) s (Linked s dp e) E := by
  unfold writeEntry
  apply Ensures.bind_get
  dsimp only
  split
  · exact .pure ⟨s.room, rfl⟩
  rename_i hsize
  rw [not_lt] at hsize
  split
  · rename_i hlt
    apply Ensures.bind_set
    refine .pure ⟨s.room, hsize, ?_⟩
    rw [addEntry, if_pos hlt]
    rfl
  rename_i hlt
  split
  · split
    · apply Ensures.bind_set
      refine .pure ⟨fun i => s.room (i + 1), hsize, ?_⟩
      rw [addEntry, if_neg hlt]
      rfl
    · apply Ensures.bind_set
      exact .pure ⟨_, rfl⟩
  · apply Ensures.bind_set
    refine .pure ⟨s.room, hsize, ?_⟩
    rw [addEntry, if_neg hlt]
    rfl

theorem dirlookup_absent (hd : (s.inode dp).type = .dir)
    (hno : ∀ e ∈ (s.inode dp).ents, e.inum ≠ 0 → e.name ≠ name) {Q : Option (Nat × Nat) → State ι → Prop}
    (h : Q none s) : Ensures (dirlookup dp name) s Q E := by
  unfold dirlookup
  apply Ensures.bind_get
  have hf : ((s.inode dp).ents.findIdx? fun e => ¬ e.inum = 0 ∧ e.name = name) = none := by
    refine List.findIdx?_eq_none_iff.mpr fun e he => ?_
    rw [decide_eq_false_iff_not]
    exact fun hc => hno e he hc.1 hc.2
  simp only [hd, ne_eq, not_true_eq_false, if_false, hf]
  exact .pure h

theorem dirlink_absent (hd : (s.inode dp).type = .dir)
    (hno : ∀ e ∈ (s.inode dp).ents, e.inum ≠ 0 → e.name ≠ name) (hi : i < 2 ^ 16) :
    Ensures (dirlink dp name i) s (Linked s dp ⟨i, name, (s.inode i).gen⟩) E := by
  unfold dirlink
  apply Ensures.bind
  refine dirlookup_absent hd hno ?_
  apply Ensures.bind_get
  rw [Nat.mod_eq_of_lt hi]
  exact writeEntry_ensures s dp _

theorem Shape.absent {ents : List Dirent} (h : Shape d ents) (hd : d ≠ 0)
    (hno : ∀ e ∈ ents, e.inum ≠ 0 → e.name ≠ name) : name ≠ dot ∧ name ≠ dotdot := by
  obtain ⟨g, i, k, rest, rfl, hi, -, -⟩ := h
  exact ⟨(hno _ List.mem_cons_self hd).symm,
    (hno _ (List.mem_cons_of_mem _ List.mem_cons_self) hi).symm⟩

theorem Shape.past {ents : List Dirent} {e : Dirent} (h : Shape d ents)
    (he : ents[off]? = some e) (hdot : e.name ≠ dot) (hdotdot : e.name ≠ dotdot) :
    2 ≤ off ∧ (off + 1) * direntSize ≤ maxfile * bsize := by
  obtain ⟨g, i, k, rest, rfl, -, -, hsize⟩ := h
  match off, he with
  | 0, he => exact absurd (Option.some.inj he ▸ rfl) hdot
  | 1, he => exact absurd (Option.some.inj he ▸ rfl) hdotdot
  | off + 2, he =>
    obtain ⟨hlt, -⟩ := List.getElem?_eq_some_iff.mp he
    rw [fits_iff] at hsize ⊢
    simp only [List.length_cons] at hlt
    omega

theorem writeEntry_clear {e : Dirent} (he : (s.inode dp).ents[off]? = some e)
    (hsize : (off + 1) * direntSize ≤ maxfile * bsize) {Q : Bool → State ι → Prop}
    (h : Q true (s.set dp { s.inode dp with ents := (s.inode dp).ents.set off .zero })) :
    Ensures (writeEntry dp off .zero) s Q E := by
  obtain ⟨hlt, -⟩ := List.getElem?_eq_some_iff.mp he
  unfold writeEntry
  apply Ensures.bind_get
  dsimp only
  rw [if_neg (not_lt.mpr hsize), if_pos hlt]
  exact h

theorem set_set (s : State ι) (i : Nat) (n m : Inode) : (s.set i n).set i m = s.set i m := by
  unfold State.set
  rw [update_idem]

variable [Fintype ι]

theorem short_eq {x : Int} (hlo : -2 ^ 15 ≤ x) (hhi : x < 2 ^ 15) : short x = x := by
  unfold short
  omega

theorem Refs.keep (h : Refs safe extra opens s) {n : Inode} (hr : n.ref = (s.inode i).ref)
    (hv : n.valid = (s.inode i).valid) (ht : n.type = (s.inode i).type) :
    Refs safe extra opens (s.set i n) := by
  refine h.set (by rw [hr]) (fun _ _ => rfl) ?_ ?_
  · rw [hv, hr, ht]
    exact h.valid i
  · rw [hr, ht]
    exact h.held i

theorem addLinks_inc (h : Inv strict safe pend extra opens s) (hi : (s.inode i).type ≠ .free)
    (hmax : (s.inode i).nlink + 1 < 2 ^ 15) :
    Ensures (addLinks i 1) s (fun _ t => Inv strict safe (bump pend i) extra opens t ∧ Frame s t ∧
      ∀ j, (t.inode j).type = (s.inode j).type) E := by
  apply Ensures.modify
  have hlo := h.links.nlink_nonneg hi
  rw [short_eq (by omega) hmax]
  refine ⟨⟨h.links.setLinks (h.links.tree.inc i) hmax, h.refs.keep rfl rfl rfl⟩, frame_set ..,
    set_same Inode.type rfl⟩

theorem addLinks_dec (h : Inv strict safe (bump pend i) extra opens s) (hi : (s.inode i).type ≠ .free) :
    Ensures (addLinks i (-1)) s (fun _ t => Inv strict safe pend extra opens t ∧ Frame s t) E := by
  apply Ensures.modify
  have hlo := h.links.nlink_nonneg hi
  have hhi := h.links.nlink_le i hi
  rw [bump_self] at hlo
  rw [short_eq (by omega) (by omega)]
  exact ⟨⟨h.links.setLinks h.links.tree.dec (show (s.inode i).nlink + -1 < 2 ^ 15 by omega),
    h.refs.keep rfl rfl rfl⟩, frame_set ..⟩

theorem Inv.withRoom (h : Inv strict safe pend extra opens s) (room : Nat → Bool) :
    Inv strict safe pend extra opens (s.withRoom room) :=
  ⟨h.links.congr ⟨rfl, fun _ => rfl, fun _ => rfl, fun _ => rfl, fun _ => rfl⟩,
    ⟨h.refs.fds, h.refs.files, h.refs.idle, h.refs.count, h.refs.valid, h.refs.held⟩⟩

def LinkFits (p : ι) (old : List UInt8) (s : State ι) : Prop :=
  Ensures (namei p old) s
    (fun r t => ∀ x ∈ r, (t.inode x.1).type ≠ .dir → (t.inode x.1).nlink + 1 < 2 ^ 15) (fun _ _ => True)

/-- The directory that a link is to be made in has links. -/
def LinkLive (p : ι) (old new : List UInt8) (s : State ι) : Prop :=
  Ensures (linkFind p old) s (fun r t => ∀ ip ∈ r, Ensures (nameiparent p new) t
    (fun q u => ∀ x ∈ q, (u.inode x.1).nlink ≠ 0) (fun _ _ => True)) (fun _ _ => True)

theorem linkFind_ensures (h : Inv strict safe pend extra opens s) (p : ι) (old : List UInt8)
    (hmax : LinkFits p old s) :
    Ensures (linkFind p old) s (fun r t => Frame s t ∧ match r with
      | none => Inv strict safe pend extra opens t
      | some ip => Inv strict safe (bump pend ip) (bump extra ip) opens t ∧
          (t.inode ip).type ≠ .free ∧ (t.inode ip).type ≠ .dir) (Typed safe) := by
  unfold linkFind
  apply Ensures.bind
  refine ((namex_ensures h p old false).and hmax).imp (fun r t ht => ?_) (fun _ _ he => he.1)
  obtain ⟨⟨hf, -, ht⟩, hmax⟩ := ht
  cases r with
  | none => exact .pure ⟨hf, ht⟩
  | some x =>
    obtain ⟨ip, name⟩ := x
    obtain ⟨ht, -⟩ := ht
    refine (ilock_ensures ht (ref_pos ht)).seq fun _ u ⟨hu, hdu, hfu, hnode⟩ => ?_
    apply Ensures.bind_get
    split
    · exact (iput_ensures hu).seq fun _ v hv => .pure ⟨(hf.trans hfu).trans hv.2.1, hv.1⟩
    · rename_i hdir
      apply Ensures.bind
      have hle : (u.inode ip).nlink + 1 < 2 ^ 15 := by
        rw [hdu.nlink]
        exact hmax _ rfl (hdu.type ip ▸ hdir)
      refine (addLinks_inc hu hnode hle).post fun _ v hv => ?_
      refine .pure ⟨(hf.trans hfu).trans hv.2.1, hv.1, ?_, ?_⟩
      · rw [hv.2.2]
        exact hnode
      · rw [hv.2.2]
        exact hdir

theorem linkBad_ensures (h : Inv strict safe (bump pend ip) (bump extra ip) opens s) :
    Ensures (linkBad ip) s (fun _ t => Inv strict safe pend extra opens t ∧ Frame s t) (Typed safe) := by
  unfold linkBad
  refine (ilock_ensures h (ref_pos h)).seq fun _ t ⟨ht, _, hf, hnode⟩ => ?_
  refine (addLinks_dec ht hnode).seq fun _ u ⟨hu, hfu⟩ => ?_
  exact (iput_ensures hu).seq fun _ v hv => .pure ⟨hv.1, (hf.trans hfu).trans hv.2.1⟩

theorem dirlink_leaf (h : Inv strict safe (bump pend ip) extra opens s)
    (hd : (s.inode dp).type = .dir) (hi : (s.inode ip).type ≠ .free) (hleaf : (s.inode ip).type ≠ .dir)
    (name : Name) (hl : strict → (s.inode dp).nlink ≠ 0) (hp : pend dp = 0) :
    Ensures (dirlink dp name ip) s (fun r t => Frame s t ∧
      Inv strict safe (if r then pend else bump pend ip) extra opens t) (Typed safe) := by
  by_cases hno : ∀ e ∈ (s.inode dp).ents, e.inum ≠ 0 → e.name ≠ name
  · have h16 : ip < 2 ^ 16 := lt_of_lt_of_le (h.links.mem hi) h.links.ninodes
    refine (dirlink_absent hd hno h16).post fun r t ht => ?_
    obtain ⟨room, ht⟩ := ht
    cases r with
    | false =>
      rw [show t = s.withRoom room from ht]
      exact ⟨⟨rfl, rfl, rfl, rfl⟩, h.withRoom room⟩
    | true =>
      obtain ⟨hsize, rfl⟩ := ht
      have hname := (h.links.shape dp hd).absent (h.links.dir_ne_zero hd) hno
      exact ⟨⟨rfl, rfl, rfl, rfl⟩,
        (h.withRoom room).links.linkLeaf name hd hi hleaf hname hsize hl hp,
        (h.withRoom room).refs.keep rfl rfl rfl⟩
  · unfold dirlink
    refine (dirlookup_ensures h hd name).seq fun r t ht => ?_
    cases r with
    | none => exact absurd ht.2 hno
    | some x =>
      obtain ⟨i, off⟩ := x
      obtain ⟨ht, -, hf, -⟩ := ht
      exact (iput_ensures ht).seq fun _ u hu => .pure ⟨hf.trans hu.2.1, hu.1⟩

theorem sysLink_ensures (h : Inv strict safe (fun _ => 0) extra opens s) (p : ι) (old new : List UInt8)
    (hmax : LinkFits p old s) (hlive : strict → LinkLive p old new s) :
    Ensures (sysLink p old new) s (fun _ t => Inv strict safe (fun _ => 0) extra opens t) (Typed safe) := by
  unfold sysLink
  refine ((linkFind_ensures h p old hmax).and_if hlive).seq fun r t ht => ?_
  obtain ⟨⟨-, ht⟩, hlive⟩ := ht
  cases r with
  | none => exact .pure ht
  | some ip =>
    obtain ⟨ht, hfree, hleaf⟩ := ht
    refine ((namex_ensures ht p new true).and_if fun hs => hlive hs ip rfl).seq fun q u hu => ?_
    obtain ⟨⟨-, hk, hu⟩, hne⟩ := hu
    cases q with
    | none => exact (linkBad_ensures hu).post fun _ _ hv => hv.1
    | some x =>
      obtain ⟨dp, name⟩ := x
      obtain ⟨hu, hdir⟩ := hu
      have htype := hk ip (by rw [bump_self]; omega)
      refine (ilock_ensures hu (ref_pos hu)).seq fun _ v ⟨hv, hdv, _, _⟩ => ?_
      refine (dirlink_leaf hv ?_ ?_ ?_ name ?_ rfl).seq fun r w hw => ?_
      · rw [hdv.type]
        exact hdir rfl
      · rw [hdv.type, htype]
        exact hfree
      · rw [hdv.type, htype]
        exact hleaf
      · intro hs
        rw [hdv.nlink]
        exact hne hs _ rfl
      · obtain ⟨-, hw⟩ := hw
        cases r with
        | true =>
          refine (iput_ensures hw).seq fun _ x hx => ?_
          exact (iput_ensures hx.1).seq fun _ y hy => .pure hy.1
        | false =>
          refine (iput_ensures hw).seq fun _ x hx => ?_
          exact (linkBad_ensures hx.1).post fun _ _ hy => hy.1

def LastUp (s : State ι) (i : Nat) : Prop :=
  ∀ j, j < s.ninodes → (s.inode j).type = .dir → j ≠ i → (s.inode j).up ≠ i

def UnlinkSafe (p : ι) (path : List UInt8) (s : State ι) : Prop :=
  Ensures (nameiparent p path) s (fun r t => ∀ x ∈ r, ∀ e ∈ (t.inode x.1).ents,
    e.inum ≠ 0 ∧ e.name = x.2 ∧ (t.inode e.inum).type = .dir ∧ isdirempty (t.inode e.inum) = true →
      LastUp t e.inum) (fun _ _ => True)

theorem unlinkTail (h : Inv strict safe (bump pend ip) (bump (bump extra dp) ip) opens s)
    (hne : dp ≠ ip) (hi : (s.inode ip).type ≠ .free) :
    Ensures (do
      iput dp
      addLinks ip (-1)
      iput ip
      return true : F ι Bool) s (fun _ t => Inv strict safe pend extra opens t) (Typed safe) := by
  rw [bump_comm] at h
  refine (iput_ensures h).seq fun _ t ht => ?_
  refine (addLinks_dec ht.1 ?_).seq fun _ u hu => ?_
  · rw [ht.2.2.2 ip hne.symm]
    exact hi
  · exact (iput_ensures hu.1).seq fun _ v hv => .pure hv.1

theorem unlinkEntry_ensures
    (h : Inv strict safe pend (bump (bump extra dp) ip) opens s)
    (hd : (s.inode dp).type = .dir) (hfound : Found s dp name ip off) (hdot : name ≠ dot)
    (hdotdot : name ≠ dotdot) (hlast : safe → (s.inode ip).type = .dir →
      isdirempty (s.inode ip) = true → LastUp s ip) :
    Ensures (unlinkEntry dp ip off) s (fun _ t => Inv strict safe pend extra opens t) (Typed safe) := by
  unfold unlinkEntry
  refine (ilock_ensures h (ref_pos h)).seq fun _ t ⟨ht, hst, _, hnode⟩ => ?_
  obtain ⟨e, he, rfl, h0, rfl⟩ := hfound
  rw [← hst.ents] at he
  rw [← hst.type] at hd
  obtain ⟨hoff, hsize⟩ := (ht.links.shape dp hd).past he hdot hdotdot
  have hne : dp ≠ e.inum := by
    intro hc
    have hl : 0 < (graph t).down dp dp := by
      have := Links.entry_link hd hoff he h0
      rwa [← hc] at this
    have hroot : dp ≠ rootino := by
      rintro rfl
      have := ht.links.tree.inDeg_pos hl
      have := ht.links.tree.root_in
      omega
    exact ht.links.tree.up_ne dp (FileType.kind_dir.mpr hd) hroot
      (ht.links.tree.up_of dp dp hl (FileType.kind_dir.mpr hd))
  apply Ensures.bind_get
  dsimp only
  split
  · exact .throw ⟨by decide, fun _ => by decide⟩
  split
  · refine (iput_ensures ht).seq fun _ u hu => ?_
    exact (iput_ensures hu.1).seq fun _ v hv => .pure hv.1
  rename_i hempty
  apply Ensures.bind
  refine writeEntry_clear he hsize ?_
  by_cases hdir : (t.inode e.inum).type = .dir
  · rw [not_and, not_not] at hempty
    have hempty := hempty hdir
    simp only [hdir, if_true, not_true_eq_false, if_false]
    apply Ensures.bind_modify
    have hdp := ht.links.nlink_nonneg (i := dp) (by rw [hd]; exact nofun)
    have hle := ht.links.nlink_le dp (by rw [hd]; exact nofun)
    simp only [set_inode_self, set_set]
    rw [short_eq (by omega) (by omega)]
    refine unlinkTail ⟨ht.links.unlinkDir hd hoff he h0 hdir ?_ ?_, ht.refs.keep rfl rfl rfl⟩ hne ?_
    · intro x hx
      exact of_decide_eq_true (List.all_eq_true.mp hempty x hx)
    · intro hs j hj hjd hji
      rw [hst.ninodes] at hj
      rw [hst.type] at hdir hjd
      have hup : (t.inode j).up = (s.inode j).up := by rw [Inode.up, hst.ents, Inode.up]
      rw [hup]
      refine hlast hs hdir ?_ j hj hjd hji
      rwa [isdirempty, hst.ents] at hempty
    · rw [set_inode_of_ne t _ hne.symm]
      exact hnode
  · simp only [hdir, if_false, not_true_eq_false]
    refine unlinkTail ⟨ht.links.unlinkLeaf hd hoff he h0 hdir, ht.refs.keep rfl rfl rfl⟩ hne ?_
    rw [set_inode_of_ne t _ hne.symm]
    exact hnode

theorem sysUnlink_ensures (h : Inv strict safe pend extra opens s) (p : ι) (path : List UInt8)
    (hsafe : safe → UnlinkSafe p path s) :
    Ensures (sysUnlink p path) s (fun _ t => Inv strict safe pend extra opens t) (Typed safe) := by
  unfold sysUnlink
  refine ((namex_ensures h p path true).and_if hsafe).seq fun r t ht => ?_
  obtain ⟨⟨-, -, ht⟩, hsafe⟩ := ht
  cases r with
  | none => exact .pure ht
  | some x =>
    obtain ⟨dp, name⟩ := x
    obtain ⟨ht, hdir⟩ := ht
    refine (ilock_ensures ht (ref_pos ht)).seq fun _ u ⟨hu, hdu, _, _⟩ => ?_
    have hd : (u.inode dp).type = .dir := (hdu.type dp).trans (hdir rfl)
    split
    · exact (iput_ensures hu).seq fun _ v hv => .pure hv.1
    rename_i hname
    rw [not_or] at hname
    refine (dirlookup_ensures hu hd name).seq fun q v hv => ?_
    cases q with
    | none =>
      obtain ⟨rfl, -⟩ := hv
      exact (iput_ensures hu).seq fun _ w hw => .pure hw.1
    | some y =>
      obtain ⟨ip, off⟩ := y
      obtain ⟨hv, hdv, -, e, he, rfl, h0, rfl⟩ := hv
      refine unlinkEntry_ensures hv ((hdv.type dp).trans hd) ⟨e, ?_, rfl, h0, rfl⟩ hname.1 hname.2 ?_
      · rw [hdv.ents]
        exact he
      · intro hs htype hempty j hj hjd hji
        have hup : (v.inode j).up = (t.inode j).up := by rw [Inode.up, hdv.ents, hdu.ents, Inode.up]
        rw [hup]
        rw [hdv.type, hdu.type] at htype hjd
        rw [isdirempty, hdv.ents, hdu.ents] at hempty
        rw [hdv.ninodes, hdu.ninodes] at hj
        rw [hdu.ents] at he
        exact hsafe hs _ rfl e (List.mem_of_getElem? he) ⟨h0, rfl, htype, hempty⟩ j hj hjd hji

end Xv6.Inodes
