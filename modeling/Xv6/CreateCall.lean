import Xv6.EntryCalls

namespace Xv6.Inodes

open Xv6.Lib Finset LinkGraph

variable {ι : Type} {strict safe : Prop} {pend extra : Nat → Nat}
  {opens : Fin nfile → Nat} {s t : State ι}

theorem ialloc_ensures (type : FileType) (href : ∀ i, (s.inode i).type = .free → (s.inode i).ref = 0) :
    Ensures (ialloc type) s (fun r t => match r with
      | none => t = s
      | some i => i ≠ 0 ∧ i < s.ninodes ∧ (s.inode i).type = .free ∧ t = s.set i { s.inode i with
          type := type, major := 0, nlink := 0, ents := [], ref := 1, valid := false }) (Typed safe) := by
  unfold ialloc
  apply Ensures.bind_get
  cases hf : (List.range s.ninodes).find? fun i => 0 < i ∧ (s.inode i).type = .free with
  | none => exact .pure rfl
  | some i =>
    have hi := List.find?_some hf
    have hmem := List.mem_range.mp (List.mem_of_find?_eq_some hf)
    rw [decide_eq_true_eq] at hi
    have hr : ¬ 0 < (s.inode i).ref := by
      rw [href i hi.2]
      exact lt_irrefl 0
    apply Ensures.bind_set
    apply Ensures.bind
    unfold iget
    apply Ensures.bind_get
    simp only [set_inode_self, hr, if_false, set_set]
    split
    · exact .throw ⟨by decide, fun _ => by decide⟩
    · apply Ensures.set
      exact .pure ⟨by omega, hmem, hi.2, rfl⟩

theorem ilock_reads {i : Nat} (hr : 0 < (s.inode i).ref) (hv : (s.inode i).valid = false)
    (ht : (s.inode i).type ≠ .free) {Q : Unit → State ι → Prop} {E : String → State ι → Prop}
    (h : Q () (s.set i { s.inode i with valid := true })) : Ensures (ilock i) s Q E := by
  unfold ilock
  apply Ensures.bind_get
  dsimp only
  rw [if_neg (not_lt.mpr hr), hv]
  apply Ensures.bind_set
  rw [if_neg ht]
  exact h

variable [Fintype ι]

def fresh (n : Inode) (type : FileType) (major : Int) (ents : List Dirent) : Inode :=
  { n with type := type, major := major, nlink := 1, ents := ents, ref := 1, valid := true }

section New

variable {i dp : Nat} {type : FileType} {major : Int} {name : Name} {ents : List Dirent}
  {E : String → State ι → Prop}

omit [Fintype ι] in
theorem dirlink_self (room : Nat → Bool) {k : Nat} (hk : k < 2 ^ 16)
    (hno : ∀ e ∈ ents, e.name ≠ name) (hents : ∀ e ∈ ents, e.inum ≠ 0) :
    Ensures (dirlink i name k) ((s.withRoom room).set i (fresh (s.inode i) .dir major ents))
      (fun r t => ∃ room, t = (s.withRoom room).set i (fresh (s.inode i) .dir major
        (if r then ents ++ [⟨k, name, (s.inode k).gen⟩] else ents))) E := by
  have hgen : (((s.withRoom room).set i (fresh (s.inode i) .dir major ents)).inode k).gen =
      (s.inode k).gen := by
    rw [set_same Inode.gen (by rfl)]
    rfl
  refine (dirlink_absent (by rw [set_inode_self]; rfl) ?_ hk).post fun r t ht => ?_
  · rw [set_inode_self]
    exact fun e he _ => hno e he
  · obtain ⟨room', ht⟩ := ht
    refine ⟨room', ?_⟩
    cases r with
    | false => exact ht
    | true =>
      obtain ⟨-, rfl⟩ := ht
      have hadd : addEntry ents ⟨k, name, (s.inode k).gen⟩ = ents ++ [⟨k, name, (s.inode k).gen⟩] := by
        have hslot : freeSlot ents = ents.length := by
          rw [freeSlot, List.findIdx?_eq_none_iff.mpr fun e he => decide_eq_false (hents e he),
            Option.getD_none]
        rw [addEntry, hslot, if_neg (lt_irrefl _)]
      rw [hgen, set_inode_self]
      simp only [fresh, hadd, if_true]
      exact set_set (s.withRoom room') i _ _

def Entered (s : State ι) (dp : Nat) (name : Name) (type : FileType) (major : Int) (i : Nat) (r : Bool)
    (t : State ι) : Prop :=
  ∃ room ents, if r then
      (freeSlot (s.inode dp).ents + 1) * direntSize ≤ maxfile * bsize ∧
      (type = .dir → ents = [⟨i, dot, (s.inode i).gen⟩, ⟨dp, dotdot, (s.inode dp).gen⟩]) ∧
      t = ((s.withRoom room).set i (fresh (s.inode i) type major ents)).set dp
        { s.inode dp with ents := addEntry (s.inode dp).ents ⟨i, name, (s.inode i).gen⟩ }
    else
      t = (s.withRoom room).set i (fresh (s.inode i) type major ents)

omit [Fintype ι] in
theorem dirlink_parent (room : Nat → Bool) (hne : dp ≠ i) (hd : (s.inode dp).type = .dir)
    (hno : ∀ e ∈ (s.inode dp).ents, e.inum ≠ 0 → e.name ≠ name) (hi : i < 2 ^ 16)
    (hents : type = .dir → ents = [⟨i, dot, (s.inode i).gen⟩, ⟨dp, dotdot, (s.inode dp).gen⟩]) :
    Ensures (dirlink dp name i) ((s.withRoom room).set i (fresh (s.inode i) type major ents))
      (Entered s dp name type major i) E := by
  have hdp : ((s.withRoom room).set i (fresh (s.inode i) type major ents)).inode dp = s.inode dp :=
    set_inode_of_ne _ _ hne
  refine (dirlink_absent (by rw [hdp]; exact hd) (by rw [hdp]; exact hno) hi).post fun r t ht => ?_
  obtain ⟨room', ht⟩ := ht
  refine ⟨room', ents, ?_⟩
  cases r with
  | false => exact ht
  | true =>
    obtain ⟨hsize, rfl⟩ := ht
    rw [hdp] at hsize
    refine ⟨hsize, hents, ?_⟩
    rw [hdp, set_inode_self]
    rfl

omit [Fintype ι] in
theorem createEntries_ensures (hne : dp ≠ i) (hd : (s.inode dp).type = .dir) (h0 : i ≠ 0)
    (hno : ∀ e ∈ (s.inode dp).ents, e.inum ≠ 0 → e.name ≠ name) (hi : i < 2 ^ 16) (hdp16 : dp < 2 ^ 16) :
    Ensures (createEntries dp name type i) (s.set i (fresh (s.inode i) type major []))
      (Entered s dp name type major i) E := by
  unfold createEntries
  split
  · rename_i htype
    subst htype
    refine (dirlink_self s.room hi (fun e he => absurd he List.not_mem_nil)
      (fun e he => absurd he List.not_mem_nil)).seq fun r t ht => ?_
    obtain ⟨room, rfl⟩ := ht
    cases r with
    | false => exact .pure ⟨room, [], rfl⟩
    | true =>
      simp only [not_true_eq_false, if_false, if_true, List.nil_append]
      refine (dirlink_self room hdp16 ?_ ?_).seq fun r t ht => ?_
      · intro e he
        rw [List.mem_singleton.mp he]
        exact (by decide : dot ≠ dotdot)
      · intro e he
        rw [List.mem_singleton.mp he]
        exact h0
      · obtain ⟨room, rfl⟩ := ht
        cases r with
        | false => exact .pure ⟨room, _, rfl⟩
        | true =>
          simp only [not_true_eq_false, if_false, if_true]
          exact dirlink_parent room hne hd hno hi (fun _ => rfl)
  · rename_i htype
    exact dirlink_parent s.room hne hd hno hi (fun hc => absurd hc htype)

theorem free_ref (h : Refs safe (bump (fun _ => 0) dp) opens s) (hd : (s.inode dp).type = .dir)
    (hi : (s.inode i).type = .free) : dp ≠ i ∧ (s.inode i).ref = 0 := by
  have hne : dp ≠ i := by
    rintro rfl
    rw [hi] at hd
    cases hd
  have hcount := h.count i
  rw [bump_of_ne _ hne.symm] at hcount
  have hheld : ¬ 0 < holders s i := fun hc => h.held i (.inl hc) hi
  exact ⟨hne, by omega⟩

theorem Refs.fresh (h : Refs safe (bump (fun _ => 0) dp) opens s) (hd : (s.inode dp).type = .dir)
    (hi : (s.inode i).type = .free) (htype : type ≠ .free) (ents : List Dirent) :
    Refs safe (bump (bump (fun _ => 0) dp) i) opens (s.set i (fresh (s.inode i) type major ents)) := by
  obtain ⟨hne, hr⟩ := free_ref h hd hi
  refine h.set ?_ (fun j hj => bump_of_ne _ hj) (fun _ _ => htype) (fun _ => htype)
  rw [bump_self, hr]
  show 1 + _ = _
  omega

omit [Fintype ι] in
theorem Links.created (h : Links strict safe (fun _ => 0) s) (hd : (s.inode dp).type = .dir)
    (hi : (s.inode i).type = .free) (h0 : i ≠ 0) (hm : i < s.ninodes) (hne : dp ≠ i) (htype : type ≠ .free)
    (hleaf : type ≠ .dir) (hname : name ≠ dot ∧ name ≠ dotdot) (hlive : strict → (s.inode dp).nlink ≠ 0)
    (hsize : (freeSlot (s.inode dp).ents + 1) * direntSize ≤ maxfile * bsize) :
    Links strict safe (fun _ => 0) ((s.set i (fresh (s.inode i) type major ents)).set dp
      { s.inode dp with ents := addEntry (s.inode dp).ents ⟨i, name, (s.inode i).gen⟩ }) := by
  have hnew : Links strict safe (bump (fun _ => 0) i) (s.set i (fresh (s.inode i) type major ents)) :=
    h.newLeaf hi h0 hm rfl htype hleaf rfl rfl
  have hdp : (s.set i (fresh (s.inode i) type major ents)).inode dp = s.inode dp := set_inode_of_ne _ _ hne
  have := hnew.linkLeaf (d := dp) (i := i) name (by rw [hdp]; exact hd)
    (by rw [set_inode_self]; exact htype) (by rw [set_inode_self]; exact hleaf) hname
    (by rw [hdp]; exact hsize) (by rw [hdp]; exact hlive) rfl
  rwa [hdp, set_inode_self] at this

omit [Fintype ι] in
theorem Links.created_dir (h : Links strict safe (fun _ => 0) s) (hd : (s.inode dp).type = .dir)
    (hi : (s.inode i).type = .free) (h0 : i ≠ 0) (hm : i < s.ninodes) (hne : dp ≠ i)
    (hname : name ≠ dot ∧ name ≠ dotdot) (hlive : (s.inode dp).nlink ≠ 0)
    (hents : ents = [⟨i, dot, (s.inode i).gen⟩, ⟨dp, dotdot, (s.inode dp).gen⟩])
    (hsize : (freeSlot (s.inode dp).ents + 1) * direntSize ≤ maxfile * bsize) :
    Links strict safe (fun _ => 0) ((s.set i (fresh (s.inode i) .dir major ents)).set dp
      { s.inode dp with
        ents := addEntry (s.inode dp).ents ⟨i, name, (s.inode i).gen⟩
        nlink := (s.inode dp).nlink + 1 }) := by
  have hnew : Links strict safe (bump (fun _ => 0) i) (s.set i (fresh (s.inode i) .dir major ents)) :=
    h.newDir hi h0 hm rfl hd hlive rfl rfl rfl rfl hents
  have hdp : (s.set i (fresh (s.inode i) .dir major ents)).inode dp = s.inode dp := set_inode_of_ne _ _ hne
  have hroot : i ≠ rootino := by
    rintro rfl
    rw [FileType.kind_dir.mp h.tree.root_dir] at hi
    cases hi
  have hin : (graph (s.set i (fresh (s.inode i) .dir major ents))).inDeg (range s.ninodes) i = 0 := by
    have hdown := h.down_set_new (n := fresh (s.inode i) .dir major ents) hi
      (fun j => by simp [Inode.links, fresh, hents])
    unfold inDeg
    rw [hdown]
    exact h.tree.free_in (FileType.kind_free.mpr hi)
  have := hnew.linkDir (d := dp) (i := i) name (by rw [hdp]; exact hd)
    (by rw [set_inode_self]; rfl) hroot
    (by rw [set_inode_self]; simp [Inode.up, fresh, hents]) hin hname
    (by rw [hdp]; exact hsize) (by rw [hdp]; exact hlive) rfl
  rwa [hdp, set_inode_self] at this

theorem createNew_ensures (h : Inv strict safe (fun _ => 0) (bump (fun _ => 0) dp) opens s)
    (hd : (s.inode dp).type = .dir) (hno : ∀ e ∈ (s.inode dp).ents, e.inum ≠ 0 → e.name ≠ name)
    (htype : type ≠ .free) (hlive : strict ∨ type = .dir → (s.inode dp).nlink ≠ 0) (major : Int) :
    Ensures (createNew dp name type major) s (fun r t => match r with
      | none => Inv strict safe (fun _ => 0) (fun _ => 0) opens t
      | some i => Inv strict safe (fun _ => 0) (bump (fun _ => 0) i) opens t ∧
          (t.inode i).type ≠ .free) (Typed safe) := by
  unfold createNew
  refine (ialloc_ensures type fun i hi => (free_ref h.refs hd hi).2).seq fun r t ht => ?_
  cases r with
  | none =>
    rw [show t = s from ht]
    exact (iput_ensures h).seq fun _ u hu => .pure hu.1
  | some i =>
    obtain ⟨h0, hm, hi, rfl⟩ := ht
    obtain ⟨hne, hr⟩ := free_ref h.refs hd hi
    have hi16 : i < 2 ^ 16 := lt_of_lt_of_le hm h.links.ninodes
    have hnode : (s.inode dp).type ≠ .free := by
      rw [hd]
      exact nofun
    have hdp16 : dp < 2 ^ 16 := lt_of_lt_of_le (h.links.mem hnode) h.links.ninodes
    have hname := (h.links.shape dp hd).absent (h.links.dir_ne_zero hd) hno
    apply Ensures.bind
    refine ilock_reads ?_ ?_ ?_ ?_
    · rw [set_inode_self]
      exact Nat.one_pos
    · rw [set_inode_self]
    · rw [set_inode_self]
      exact htype
    apply Ensures.bind_modify
    simp only [set_inode_self, set_set]
    refine (createEntries_ensures hne hd h0 hno hi16 hdp16).seq fun r t ht => ?_
    obtain ⟨room, ents, ht⟩ := ht
    have hroom := h.withRoom room
    have hrefs : Refs safe (bump (bump (fun _ => 0) dp) i) opens
        ((s.withRoom room).set i (fresh (s.inode i) type major ents)) := hroom.refs.fresh hd hi htype ents
    cases r with
    | true =>
      obtain ⟨hsize, hents, rfl⟩ := ht
      have hdp : ((s.withRoom room).set i (fresh (s.inode i) type major ents)).inode dp = s.inode dp :=
        set_inode_of_ne _ _ hne
      have hnew : ∀ n : Inode, ((((s.withRoom room).set i (fresh (s.inode i) type major ents)).set dp
          n).inode i).type ≠ .free := by
        intro n
        rw [set_inode_of_ne _ _ hne.symm, set_inode_self]
        exact htype
      by_cases htd : type = .dir
      · subst htd
        have hfits := h.links.dir_nlink_lt hd rfl
        have hlo := h.links.nlink_nonneg hnode
        simp only [if_true]
        apply Ensures.bind_modify
        simp only [set_inode_self, set_set]
        rw [short_eq (by omega) hfits]
        refine (iput_ensures (i := dp) ⟨hroom.links.created_dir hd hi h0 hm hne hname
          (hlive (.inr rfl)) (hents rfl) hsize, ?_⟩).seq fun _ u hu => .pure ⟨hu.1, ?_⟩
        · rw [bump_comm]
          exact hrefs.keep (by rw [hdp]; rfl) (by rw [hdp]; rfl) (by rw [hdp]; rfl)
        · rw [hu.2.2.2 i hne.symm]
          exact hnew _
      · simp only [htd, if_true, if_false]
        refine (iput_ensures (i := dp) ⟨hroom.links.created hd hi h0 hm hne htype htd hname
          (fun hs => hlive (.inl hs)) hsize, ?_⟩).seq fun _ u hu => .pure ⟨hu.1, ?_⟩
        · rw [bump_comm]
          exact hrefs.keep (by rw [hdp]; rfl) (by rw [hdp]; rfl) (by rw [hdp]; rfl)
        · rw [hu.2.2.2 i hne.symm]
          exact hnew _
    | false =>
      rw [show t = _ from ht]
      simp only [Bool.false_eq_true, if_false]
      apply Ensures.bind_modify
      simp only [set_inode_self, set_set]
      apply Ensures.bind_modify
      simp only [set_inode_self, set_set, fresh, and_self, if_true]
      refine (iput_ensures (i := dp) ⟨hroom.links.setFree rfl (.inl hi), hroom.refs.set ?_
        (fun _ _ => rfl) (fun hv => absurd hv Bool.false_ne_true) ?_⟩).seq fun _ u hu => .pure hu.1
      · show 0 + _ = (s.inode i).ref + _
        omega
      · rintro (hh | ⟨-, hc⟩)
        · exact absurd hi (hroom.refs.held i (.inl hh))
        · exact absurd hc (lt_irrefl 0)

end New

def CreateLive (p : ι) (path : List UInt8) (s : State ι) : Prop :=
  Ensures (nameiparent p path) s (fun r t => ∀ x ∈ r,
    (∀ e ∈ (t.inode x.1).ents, e.inum ≠ 0 → e.name ≠ x.2) → (t.inode x.1).nlink ≠ 0) (fun _ _ => True)

theorem create_ensures (h : Inv strict safe (fun _ => 0) (fun _ => 0) opens s) (p : ι) (path : List UInt8)
    {type : FileType} (major : Int) (htype : type ≠ .free)
    (hlive : strict ∨ type = .dir → CreateLive p path s) :
    Ensures (create p path type major) s (fun r t => match r with
      | none => Inv strict safe (fun _ => 0) (fun _ => 0) opens t
      | some i => Inv strict safe (fun _ => 0) (bump (fun _ => 0) i) opens t ∧
          (t.inode i).type ≠ .free) (Typed safe) := by
  unfold create
  refine ((namex_ensures h p path true).and_if hlive).seq fun r t ht => ?_
  obtain ⟨⟨-, -, ht⟩, hlive⟩ := ht
  cases r with
  | none => exact .pure ht
  | some x =>
    obtain ⟨dp, name⟩ := x
    obtain ⟨ht, hdir⟩ := ht
    refine (ilock_ensures ht (ref_pos ht)).seq fun _ u ⟨hu, hdu, _, _⟩ => ?_
    have hd : (u.inode dp).type = .dir := (hdu.type dp).trans (hdir rfl)
    refine (dirlookup_ensures hu hd name).seq fun q v hv => ?_
    cases q with
    | none =>
      obtain ⟨rfl, hno⟩ := hv
      refine createNew_ensures hu hd hno htype (fun hs => ?_) major
      rw [hdu.nlink]
      rw [hdu.ents] at hno
      exact hlive hs _ rfl hno
    | some y =>
      obtain ⟨ip, off⟩ := y
      obtain ⟨hv, -, -, -⟩ := hv
      rw [bump_comm] at hv
      refine (iput_ensures hv).seq fun _ w hw => ?_
      refine (ilock_ensures hw.1 (ref_pos hw.1)).seq fun _ x ⟨hx, _, _, hnode⟩ => ?_
      apply Ensures.bind_get
      dsimp only
      split
      · exact .pure ⟨hx, hnode⟩
      · exact (iput_ensures hx).seq fun _ y hy => .pure hy.1

end Xv6.Inodes
