import Xv6.DirTree

namespace Xv6.Inodes

open Xv6.Lib Finset Function

variable {ι : Type} {a e : Dirent} {ents : List Dirent}

def addEntry (ents : List Dirent) (e : Dirent) : List Dirent :=
  if freeSlot ents < ents.length then ents.set (freeSlot ents) e else ents ++ [e]

theorem fits_iff {n : Nat} : n * direntSize ≤ maxfile * bsize ↔ n ≤ 17152 := by
  show n * 16 ≤ 274432 ↔ n ≤ 17152
  omega

theorem freeSlot_cons (ha : a.inum ≠ 0) (ents : List Dirent) :
    freeSlot (a :: ents) = freeSlot ents + 1 := by
  unfold freeSlot
  rw [List.findIdx?_cons, decide_eq_false ha]
  cases ents.findIdx? fun e => e.inum = 0 <;> simp

theorem freeSlot_le (ents : List Dirent) : freeSlot ents ≤ ents.length := by
  unfold freeSlot
  cases h : ents.findIdx? fun e => e.inum = 0 with
  | none => exact le_refl _
  | some k =>
    obtain ⟨hk, -, -⟩ := List.findIdx?_eq_some_iff_getElem.mp h
    exact hk.le

theorem addEntry_cons (ha : a.inum ≠ 0) (ents : List Dirent) (e : Dirent) :
    addEntry (a :: ents) e = a :: addEntry ents e := by
  unfold addEntry
  rw [freeSlot_cons ha, List.length_cons]
  by_cases h : freeSlot ents < ents.length
  · rw [if_pos h, if_pos (by omega), List.set_cons_succ]
  · rw [if_neg h, if_neg (by omega), List.cons_append]

theorem mem_addEntry {x : Dirent} (h : x ∈ addEntry ents e) : x = e ∨ x ∈ ents := by
  unfold addEntry at h
  split at h
  · exact (List.mem_or_eq_of_mem_set h).symm
  · rcases List.mem_append.mp h with h | h
    · exact .inr h
    · exact .inl (List.mem_singleton.mp h)

theorem addEntry_length (ents : List Dirent) (e : Dirent) :
    (addEntry ents e).length ≤ max ents.length (freeSlot ents + 1) := by
  have := freeSlot_le ents
  unfold addEntry
  split
  · rw [List.length_set]
    omega
  · rw [List.length_append, List.length_singleton]
    omega

theorem freeSlot_free (h : freeSlot ents < ents.length) :
    (ents[freeSlot ents]).inum = 0 := by
  cases hf : ents.findIdx? fun e => e.inum = 0 with
  | none =>
    have : freeSlot ents = ents.length := by rw [freeSlot, hf, Option.getD_none]
    omega
  | some k =>
    obtain ⟨hk, hz, -⟩ := List.findIdx?_eq_some_iff_getElem.mp hf
    have : freeSlot ents = k := by rw [freeSlot, hf, Option.getD_some]
    simpa only [this, decide_eq_true_eq] using hz

theorem addEntry_count (ents : List Dirent) (e : Dirent) {i : Nat} (hi : i ≠ 0) :
    (addEntry ents e).countP (fun x => x.inum = i) =
      ents.countP (fun x => x.inum = i) + if e.inum = i then 1 else 0 := by
  unfold addEntry
  split
  · rename_i h
    have hz := freeSlot_free h
    rw [List.countP_set h]
    have : ¬ (decide ((ents[freeSlot ents]).inum = i) = true) := by
      simp only [hz, decide_eq_true_eq]
      exact fun hc => hi hc.symm
    rw [if_neg this]
    simp
  · rw [List.countP_append]
    simp [List.countP_singleton]

theorem Shape.add {d : Nat} (h : Shape d ents) (hd : d ≠ 0) (hname : e.name ≠ dot ∧ e.name ≠ dotdot)
    (hsize : (freeSlot ents + 1) * direntSize ≤ maxfile * bsize) :
    Shape d (addEntry ents e) ∧ (addEntry ents e).getD 1 .zero = ents.getD 1 .zero ∧
      (addEntry ents e).drop 2 = addEntry (ents.drop 2) e := by
  obtain ⟨g, i, k, rest, rfl, hi, hrest, hlen⟩ := h
  rw [addEntry_cons hd, addEntry_cons hi]
  rw [freeSlot_cons hd, freeSlot_cons hi] at hsize
  refine ⟨⟨g, i, k, _, rfl, hi, ?_, ?_⟩, rfl, rfl⟩
  · intro x hx h0
    rcases mem_addEntry hx with rfl | hx
    · exact hname
    · exact hrest x hx h0
  · have := addEntry_length rest e
    rw [fits_iff] at hsize hlen ⊢
    omega

theorem Shape.clear {d off : Nat} (h : Shape d ents) (hoff : 2 ≤ off) :
    Shape d (ents.set off .zero) ∧ (ents.set off .zero).getD 1 .zero = ents.getD 1 .zero ∧
      (ents.set off .zero).drop 2 = (ents.drop 2).set (off - 2) .zero := by
  obtain ⟨g, i, k, rest, rfl, hi, hrest, hlen⟩ := h
  obtain ⟨off, rfl⟩ := Nat.exists_eq_add_of_le' hoff
  refine ⟨⟨g, i, k, rest.set off .zero, rfl, hi, ?_, ?_⟩, rfl, rfl⟩
  · intro x hx h0
    rcases List.mem_or_eq_of_mem_set hx with hx | rfl
    · exact hrest x hx h0
    · exact absurd rfl h0
  · rw [List.length_set]
    exact hlen

variable {strict safe : Prop} {pend : Nat → Nat} {s : State ι}

namespace Links

variable {d i off : Nat} {e : Dirent} {n : Inode} {q : Nat → Nat}

section

variable (h : Links strict safe pend s)
include h

theorem dir_ne_zero (hd : (s.inode d).type = .dir) : d ≠ 0 := by
  rintro rfl
  rw [h.zero] at hd
  cases hd

theorem mem (hi : (s.inode i).type ≠ .free) : i < s.ninodes :=
  mem_range.mp (h.tree.mem i (fun hc => hi (FileType.kind_free.mp hc)))

theorem unnamed (hs : safe)
    (hi : (s.inode i).type = .free ∨ (s.inode i).nlink = 0) (hd : (s.inode d).type = .dir)
    (hdi : d ≠ i) (he : e ∈ (s.inode d).ents) (h0 : e.inum ≠ 0) : e.inum ≠ i := by
  rcases hi with hi | hi
  · rintro rfl
    exact h.entry_node hs hd he h0 hi
  obtain ⟨hroot, hin⟩ := h.tree.unlinked (x := i) hi
  rcases (h.shape d hd).entry hd he h0 with heq | heq | heq
  · rwa [heq]
  · rw [heq]
    intro hc
    rcases (h.tree.up_linked hs d (FileType.kind_dir.mpr hd)).2 with hr | hr
    · exact hroot (hc ▸ hr)
    · rw [show (graph s).up d = i from hc] at hr
      omega
  · rintro rfl
    have := h.tree.inDeg_pos (d := d) heq
    omega

theorem linked (hd : (s.inode d).type = .dir) (hp : pend d = 0)
    (hl : (s.inode d).nlink ≠ 0) : d = rootino ∨ 0 < (graph s).inDeg (range s.ninodes) d := by
  have hkd : (graph s).kind d = .dir := FileType.kind_dir.mpr hd
  refine (h.tree.dir_pos_iff hkd hp).mp ?_
  have hne : (graph s).nlink d ≠ 0 := hl
  have := h.tree.dir d hkd
  split at this <;> omega

theorem setFree (hn : n.type = .free)
    (hi : (s.inode i).type = .free ∨ (s.inode i).nlink = 0) : Links strict safe pend (s.set i n) := by
  have hlinks : n.links = fun _ => 0 := funext fun j => if_neg (fun hc => by simp [hn] at hc)
  have hdir : ∀ d, ((s.set i n).inode d).type = .dir → d ≠ i ∧ (s.inode d).type = .dir := by
    intro d hd
    have hdi : d ≠ i := by
      rintro rfl
      rw [set_inode_self, hn] at hd
      cases hd
    exact ⟨hdi, set_inode_of_ne s n hdi ▸ hd⟩
  have hdrop : ((graph s).drop i).Ok (range s.ninodes) rootino strict safe pend := by
    by_cases hf : (s.inode i).type = .free
    · have hkind : (graph s).kind i = .free := FileType.kind_free.mpr hf
      refine h.tree.congr ?_ ?_ (fun _ _ => rfl) (fun _ _ => rfl)
      · exact update_eq_self_iff.mpr hkind.symm
      · refine update_eq_self_iff.mpr (funext fun y => ?_)
        exact (h.tree.free_down (by rw [hkind]; exact nofun) y).symm
    · exact h.tree.drop (fun hc => hf (FileType.kind_free.mp hc)) (hi.resolve_left hf)
  constructor
  · refine hdrop.congr ?_ ?_ ?_ ?_
    · funext j
      obtain rfl | hj := eq_or_ne j i
      · simp [graph, LinkGraph.drop, hn, FileType.kind]
      · simp [graph, LinkGraph.drop, set_inode_of_ne s n hj, hj]
    · funext j
      obtain rfl | hj := eq_or_ne j i
      · simp only [graph, LinkGraph.drop, set_inode_self, update_self]
        exact hlinks
      · simp [graph, LinkGraph.drop, set_inode_of_ne s n hj, hj]
    · intro j hj
      have hji : j ≠ i := by
        rintro rfl
        simp [LinkGraph.drop] at hj
      simp [graph, LinkGraph.drop, set_inode_of_ne s n hji]
    · intro j hj
      have hji : j ≠ i := by
        rintro rfl
        simp [LinkGraph.drop] at hj
      simp [graph, LinkGraph.drop, set_inode_of_ne s n hji]
  · exact h.ninodes
  · by_cases h0 : (0 : Nat) = i
    · rw [← h0, set_inode_self]
      exact hn
    · rw [set_inode_of_ne s n h0]
      exact h.zero
  · intro d hd
    obtain ⟨hdi, hd⟩ := hdir d hd
    rw [set_inode_of_ne s n hdi]
    exact h.shape d hd
  · intro j hj
    have hji : j ≠ i := by
      rintro rfl
      rw [set_inode_self] at hj
      exact hj hn
    rw [set_inode_of_ne s n hji] at hj ⊢
    exact h.nlink_le j hj
  · intro hs d hd e he h0
    obtain ⟨hdi, hd⟩ := hdir d hd
    rw [set_inode_of_ne s n hdi] at he
    rw [set_inode_of_ne s n (h.unnamed hs hi hd hdi he h0)]
    exact h.gen hs d hd e he h0

theorem change (i : Nat) (ents : List Dirent) (c : Int)
    {down : Nat → Nat → Nat}
    (hok : ({ graph s with down := down, nlink := update (graph s).nlink i c } :
      LinkGraph Nat).Ok (range s.ninodes) rootino strict safe q)
    (hdown : down = update (graph s).down i ({ s.inode i with ents := ents } : Inode).links)
    (hshape : (s.inode i).type = .dir → Shape i ents)
    (hup : ents.getD 1 .zero = (s.inode i).ents.getD 1 .zero) (hc : c < 2 ^ 15)
    (hgen : safe → (s.inode i).type = .dir → ∀ e ∈ ents, e.inum ≠ 0 → e.gen = (s.inode e.inum).gen) :
    Links strict safe q (s.set i { s.inode i with ents := ents, nlink := c }) := by
  set t := s.set i { s.inode i with ents := ents, nlink := c } with ht
  have hself : t.inode i = { s.inode i with ents := ents, nlink := c } := set_inode_self ..
  have hoff : ∀ j, j ≠ i → t.inode j = s.inode j := fun j hj => set_inode_of_ne s _ hj
  have htype : ∀ j, (t.inode j).type = (s.inode j).type := by
    intro j
    by_cases hj : j = i
    · rw [hj, hself]
    · rw [hoff j hj]
  have hgens : ∀ j, (t.inode j).gen = (s.inode j).gen := by
    intro j
    by_cases hj : j = i
    · rw [hj, hself]
    · rw [hoff j hj]
  have hups : ∀ j, (t.inode j).up = (s.inode j).up := by
    intro j
    by_cases hj : j = i
    · rw [hj, hself]
      exact congrArg Dirent.inum hup
    · rw [hoff j hj]
  have hlinks : (fun j => (t.inode j).links) = down := by
    rw [hdown]
    funext j
    by_cases hj : j = i
    · rw [hj, hself, update_self]
      rfl
    · rw [hoff j hj, update_of_ne hj]
      rfl
  have hnlink : (fun j => (t.inode j).nlink) = update (graph s).nlink i c := by
    funext j
    by_cases hj : j = i
    · rw [hj, hself, update_self]
    · rw [hoff j hj, update_of_ne hj]
      rfl
  have hgraph : graph t = { graph s with down := down, nlink := update (graph s).nlink i c } := by
    rw [← hlinks, ← hnlink]
    simp only [graph, htype, hups]
  constructor
  · rw [hgraph]
    exact hok
  · exact h.ninodes
  · exact (htype 0).trans h.zero
  · intro j hj
    obtain rfl | hji := eq_or_ne j i
    · rw [hself]
      exact hshape (htype j ▸ hj)
    · rw [hoff j hji] at hj ⊢
      exact h.shape j hj
  · intro j hj
    by_cases hji : j = i
    · rw [hji, hself]
      exact hc
    · rw [hoff j hji] at hj ⊢
      exact h.nlink_le j hj
  · intro hs j hj e he h0
    rw [hgens]
    obtain rfl | hji := eq_or_ne j i
    · rw [hself] at he
      exact hgen hs (htype j ▸ hj) e he h0
    · rw [hoff j hji] at hj he
      exact h.gen hs j hj e he h0

theorem setLinks {c : Int}
    (hok : ((graph s).setLinks i c).Ok (range s.ninodes) rootino strict safe q) (hc : c < 2 ^ 15) :
    Links strict safe q (s.set i { s.inode i with nlink := c }) :=
  h.change i (s.inode i).ents c hok (update_eq_self i (graph s).down).symm
    (h.shape i) rfl hc (fun hs hd => h.gen hs i hd)

theorem setEnts (hd : (s.inode d).type = .dir) {ents : List Dirent} {down : Nat → Nat → Nat}
    (hok : ({ graph s with down := down } : LinkGraph Nat).Ok (range s.ninodes) rootino strict safe q)
    (hdown : down = update (graph s).down d ({ s.inode d with ents := ents } : Inode).links)
    (hshape : Shape d ents) (hup : ents.getD 1 .zero = (s.inode d).ents.getD 1 .zero)
    (hgen : safe → ∀ e ∈ ents, e.inum ≠ 0 → e.gen = (s.inode e.inum).gen) :
    Links strict safe q (s.set d { s.inode d with ents := ents }) := by
  have hsame : update (graph s).nlink d (s.inode d).nlink = (graph s).nlink :=
    update_eq_self d (graph s).nlink
  refine h.change d ents (s.inode d).nlink ?_ hdown (fun _ => hshape) hup
    (h.nlink_le d (by rw [hd]; exact nofun)) (fun hs _ => hgen hs)
  rw [hsame]
  exact hok

theorem links_add (hd : (s.inode d).type = .dir) (he : e.inum ≠ 0) (hname : e.name ≠ dot ∧ e.name ≠ dotdot)
    (hsize : (freeSlot (s.inode d).ents + 1) * direntSize ≤ maxfile * bsize) :
    ((graph s).link d e.inum).down = update (graph s).down d
      ({ s.inode d with ents := addEntry (s.inode d).ents e } : Inode).links := by
  obtain ⟨-, -, hdrop⟩ := (h.shape d hd).add (e := e) (h.dir_ne_zero hd) hname hsize
  funext j i
  obtain rfl | hj := eq_or_ne j d
  · rw [update_self]
    show (if j = j ∧ i = e.inum then (s.inode j).links i + 1 else (s.inode j).links i) = _
    by_cases hi : i = 0
    · rw [if_neg (fun hc => he (hc.2.symm.trans hi))]
      simp [Inode.links, hi]
    · simp only [Inode.links, hd, hi, ne_eq, not_false_eq_true, and_self, if_true, true_and, hdrop]
      rw [addEntry_count _ _ hi]
      by_cases hei : i = e.inum
      · rw [if_pos hei, if_pos hei.symm]
      · rw [if_neg hei, if_neg (fun hc => hei hc.symm), add_zero]
  · rw [update_of_ne hj]
    exact if_neg (fun hc => hj hc.1)

end

theorem linkLeaf (name : Name) (h : Links strict safe (LinkGraph.bump pend i) s)
    (hd : (s.inode d).type = .dir) (hi : (s.inode i).type ≠ .free) (hleaf : (s.inode i).type ≠ .dir)
    (hname : name ≠ dot ∧ name ≠ dotdot)
    (hsize : (freeSlot (s.inode d).ents + 1) * direntSize ≤ maxfile * bsize)
    (hl : strict → (s.inode d).nlink ≠ 0) (hp : pend d = 0) :
    Links strict safe pend
      (s.set d { s.inode d with ents := addEntry (s.inode d).ents ⟨i, name, (s.inode i).gen⟩ }) := by
  have hi0 : i ≠ 0 := by
    rintro rfl
    exact hi h.zero
  have hdi : d ≠ i := fun hc => hleaf (hc ▸ hd)
  have hkd : (graph s).kind d = .dir := FileType.kind_dir.mpr hd
  obtain ⟨hshape, hup, -⟩ := (h.shape d hd).add (e := ⟨i, name, (s.inode i).gen⟩)
    (h.dir_ne_zero hd) hname hsize
  refine h.setEnts hd (h.tree.link (FileType.kind_leaf hi hleaf) hkd ?_)
    (h.links_add (e := ⟨i, name, (s.inode i).gen⟩) hd hi0 hname hsize) hshape hup ?_
  · exact fun hs => h.linked hd ((LinkGraph.bump_of_ne pend hdi).trans hp) (hl hs)
  · intro hs e he h0
    rcases mem_addEntry he with rfl | he
    · rfl
    · exact h.gen hs d hd e he h0

/-- A directory's own count never reaches the end of a `short`: its subdirectories have entries in
it. -/
theorem dir_nlink_lt (h : Links strict safe pend s) (hd : (s.inode d).type = .dir)
    (hp : pend d = 0) : (s.inode d).nlink + 1 < 2 ^ 15 := by
  have hkd : (graph s).kind d = .dir := FileType.kind_dir.mpr hd
  have hkids : (graph s).kids (range s.ninodes) rootino d ≤ ((s.inode d).ents.drop 2).length := by
    rw [← List.length_map (f := Dirent.inum)]
    refine le_trans (card_le_card ?_) (List.toFinset_card_le _)
    intro x hx
    obtain ⟨-, -, e, he, hi⟩ := links_pos.mp (h.tree.kid_down (mem_filter.mp hx).2)
    exact List.mem_toFinset.mpr (List.mem_map.mpr ⟨e, he, hi⟩)
  have hlen : ((s.inode d).ents.drop 2).length ≤ 17150 := by
    obtain ⟨g, i, k, rest, heq, -, -, hsize⟩ := h.shape d hd
    rw [fits_iff] at hsize
    rw [heq]
    exact (show rest.length ≤ 17150 by omega)
  have hone := h.tree.dir_one d hkd
  have hcount : (s.inode d).nlink = (if d = rootino then 1 else (graph s).inDeg (range s.ninodes) d) +
      (graph s).kids (range s.ninodes) rootino d + pend d := h.tree.dir d hkd
  split at hcount <;> omega

theorem links_clear (h : Links strict safe pend s) (hd : (s.inode d).type = .dir) (hoff : 2 ≤ off)
    (he : (s.inode d).ents[off]? = some e) (h0 : e.inum ≠ 0) :
    ((graph s).unlink d e.inum).down = update (graph s).down d
      ({ s.inode d with ents := (s.inode d).ents.set off .zero } : Inode).links := by
  obtain ⟨-, -, hdrop⟩ := (h.shape d hd).clear hoff
  have hget : ((s.inode d).ents.drop 2)[off - 2]? = some e := by
    rw [List.getElem?_drop, show 2 + (off - 2) = off by omega]
    exact he
  obtain ⟨hlt, hget⟩ := List.getElem?_eq_some_iff.mp hget
  funext j i
  obtain rfl | hj := eq_or_ne j d
  · rw [update_self]
    show (if j = j ∧ i = e.inum then (s.inode j).links i - 1 else (s.inode j).links i) = _
    by_cases hi : i = 0
    · rw [if_neg (fun hc => h0 (hc.2.symm.trans hi))]
      simp [Inode.links, hi]
    · simp only [Inode.links, hd, hi, ne_eq, not_false_eq_true, and_self, if_true, true_and, hdrop]
      rw [List.countP_set hlt, hget]
      have hz : ¬ (decide (Dirent.zero.inum = i) = true) := by
        simp only [decide_eq_true_eq]
        exact fun hc => hi hc.symm
      rw [if_neg hz, add_zero]
      by_cases hei : i = e.inum
      · rw [if_pos hei, if_pos (decide_eq_true hei.symm)]
      · rw [if_neg hei, if_neg (fun hc => hei (of_decide_eq_true hc).symm), Nat.sub_zero]
  · rw [update_of_ne hj]
    exact if_neg (fun hc => hj hc.1)

theorem entry_link (hd : (s.inode d).type = .dir) (hoff : 2 ≤ off)
    (he : (s.inode d).ents[off]? = some e) (h0 : e.inum ≠ 0) : 0 < (graph s).down d e.inum := by
  refine links_pos.mpr ⟨hd, h0, e, ?_, rfl⟩
  refine List.mem_of_getElem? (i := off - 2) ?_
  rw [List.getElem?_drop, show 2 + (off - 2) = off by omega]
  exact he

section

variable (h : Links strict safe pend s)
include h

theorem gen_clear (hs : safe) (hd : (s.inode d).type = .dir) :
    ∀ e ∈ (s.inode d).ents.set off .zero, e.inum ≠ 0 → e.gen = (s.inode e.inum).gen := by
  intro e he h0
  rcases List.mem_or_eq_of_mem_set he with he | rfl
  · exact h.gen hs d hd e he h0
  · exact absurd rfl h0

theorem unlinkLeaf (hd : (s.inode d).type = .dir) (hoff : 2 ≤ off) (he : (s.inode d).ents[off]? = some e)
    (h0 : e.inum ≠ 0)
    (hleaf : (s.inode e.inum).type ≠ .dir) :
    Links strict safe (LinkGraph.bump pend e.inum)
      (s.set d { s.inode d with ents := (s.inode d).ents.set off .zero }) := by
  have hl := entry_link hd hoff he h0
  have hfree : (s.inode e.inum).type ≠ .free := fun hc =>
    h.tree.to_node d _ hl (FileType.kind_free.mpr hc)
  obtain ⟨hshape, hup, -⟩ := (h.shape d hd).clear hoff
  exact h.setEnts hd (h.tree.unlinkLeaf (FileType.kind_leaf hfree hleaf) hl)
    (h.links_clear hd hoff he h0) hshape hup (fun hs => h.gen_clear hs hd)

theorem unlinkDir (hd : (s.inode d).type = .dir) (hoff : 2 ≤ off) (he : (s.inode d).ents[off]? = some e)
    (h0 : e.inum ≠ 0) (hdir : (s.inode e.inum).type = .dir) (hempty : ∀ x ∈ (s.inode e.inum).ents.drop 2, x.inum = 0)
    (hlast : safe → ∀ j, j < s.ninodes → (s.inode j).type = .dir → j ≠ e.inum → (s.inode j).up ≠ e.inum) :
    Links strict safe (LinkGraph.bump pend e.inum) (s.set d
      { s.inode d with ents := (s.inode d).ents.set off .zero, nlink := (s.inode d).nlink - 1 }) := by
  have hl := entry_link hd hoff he h0
  obtain ⟨hshape, hup, -⟩ := (h.shape d hd).clear hoff
  refine h.change d _ _ (h.tree.unlinkDir (FileType.kind_dir.mpr hdir) hl ?_ ?_)
    (h.links_clear hd hoff he h0) (fun _ => hshape) hup ?_ (fun hs _ => h.gen_clear hs hd)
  · intro y
    by_contra hne
    obtain ⟨-, hy, x, hx, hi⟩ := links_pos.mp (Nat.pos_of_ne_zero hne)
    exact hy (hi ▸ hempty x hx)
  · intro hs j hj
    have hj := FileType.kind_dir.mp hj
    exact hlast hs j (h.mem (by rw [hj]; exact nofun)) hj
  · have := h.nlink_le d (by rw [hd]; exact nofun)
    exact (show (s.inode d).nlink - 1 < 2 ^ 15 by omega)

theorem trunc (hi : (s.inode i).type ≠ .dir) :
    Links strict safe pend (s.set i { s.inode i with ents := [] }) := by
  have hdir : ∀ d, ((s.set i { s.inode i with ents := [] }).inode d).type = .dir → d ≠ i := by
    rintro d hd rfl
    rw [set_inode_self] at hd
    exact hi hd
  have htype : ∀ j, ((s.set i { s.inode i with ents := [] }).inode j).type = (s.inode j).type :=
    set_same Inode.type rfl
  have hnlink : ∀ j, ((s.set i { s.inode i with ents := [] }).inode j).nlink = (s.inode j).nlink :=
    set_same Inode.nlink rfl
  constructor
  · refine h.tree.congr (funext fun j => congrArg FileType.kind (htype j)) ?_ ?_ (fun j _ => hnlink j)
    · funext d
      obtain rfl | hd := eq_or_ne d i
      · show ((s.set d { s.inode d with ents := [] }).inode d).links = (s.inode d).links
        rw [set_inode_self]
        funext j
        simp [Inode.links, hi]
      · show ((s.set i { s.inode i with ents := [] }).inode d).links = (s.inode d).links
        rw [set_inode_of_ne s _ hd]
    · intro j hj
      have hji : j ≠ i := fun hc => hi (hc ▸ FileType.kind_dir.mp hj)
      show ((s.set i { s.inode i with ents := [] }).inode j).up = (s.inode j).up
      rw [set_inode_of_ne s _ hji]
  · exact h.ninodes
  · exact (htype 0).trans h.zero
  · intro d hd
    have hdi := hdir d hd
    rw [set_inode_of_ne s _ hdi] at hd ⊢
    exact h.shape d hd
  · intro j hj
    rw [hnlink]
    exact h.nlink_le j (htype j ▸ hj)
  · intro hs d hd e he h0
    have hdi := hdir d hd
    rw [set_inode_of_ne s _ hdi] at hd he
    have hgen := set_same Inode.gen (n := { s.inode i with ents := [] }) rfl e.inum
    exact (h.gen hs d hd e he h0).trans hgen.symm

theorem setNew (hi : (s.inode i).type = .free) (h0 : i ≠ 0)
    (hok : (graph (s.set i n)).Ok (range s.ninodes) rootino strict safe q)
    (hshape : n.type = .dir → Shape i n.ents) (hn : n.nlink < 2 ^ 15) (hgen : n.gen = (s.inode i).gen)
    (hents : safe → n.type = .dir → ∀ e ∈ n.ents, e.inum ≠ 0 → e.gen = (s.inode e.inum).gen) :
    Links strict safe q (s.set i n) := by
  constructor
  · exact hok
  · exact h.ninodes
  · rw [set_inode_of_ne s n h0.symm]
    exact h.zero
  · intro d hd
    obtain rfl | hdi := eq_or_ne d i
    · rw [set_inode_self] at hd ⊢
      exact hshape hd
    · rw [set_inode_of_ne s n hdi] at hd ⊢
      exact h.shape d hd
  · intro j hj
    by_cases hji : j = i
    · rw [hji, set_inode_self]
      exact hn
    · rw [set_inode_of_ne s n hji] at hj ⊢
      exact h.nlink_le j hj
  · intro hs d hd e he he0
    rw [set_same Inode.gen hgen]
    obtain rfl | hdi := eq_or_ne d i
    · rw [set_inode_self] at hd he
      exact hents hs hd e he he0
    · rw [set_inode_of_ne s n hdi] at hd he
      exact h.gen hs d hd e he he0

theorem down_set_new (hi : (s.inode i).type = .free)
    (hlinks : ∀ j, n.links j = 0) : (graph (s.set i n)).down = (graph s).down := by
  funext d
  obtain rfl | hd := eq_or_ne d i
  · show ((s.set d n).inode d).links = _
    rw [set_inode_self]
    funext j
    rw [hlinks]
    exact (h.tree.free_down (fun hc => by simp [graph, hi, FileType.kind] at hc) j).symm
  · show ((s.set i n).inode d).links = _
    rw [set_inode_of_ne s n hd]
    rfl

end

theorem set_field {β : Type} (f : Inode → β) (i : Nat) (n : Inode) :
    (fun j => f ((s.set i n).inode j)) = update (fun j => f (s.inode j)) i (f n) := by
  funext j
  by_cases hj : j = i
  · rw [hj, set_inode_self, update_self]
  · rw [set_inode_of_ne s n hj, update_of_ne hj]

theorem newLeaf (h : Links strict safe pend s) (hi : (s.inode i).type = .free)
    (h0 : i ≠ 0) (hm : i < s.ninodes) (hp : pend i = 0) (hfree : n.type ≠ .free) (hdir : n.type ≠ .dir)
    (hn : n.nlink = 1) (hgen : n.gen = (s.inode i).gen) :
    Links strict safe (LinkGraph.bump pend i) (s.set i n) := by
  refine h.setNew hi h0 ?_ (fun hc => absurd hc hdir) (by omega) hgen (fun _ hc => absurd hc hdir)
  refine (h.tree.addLeaf (FileType.kind_free.mpr hi) (mem_range.mpr hm) hp).congr ?_ ?_ ?_ ?_
  · refine (set_field (fun m => m.type.kind) i n).trans ?_
    rw [FileType.kind_leaf hfree hdir]
    rfl
  · exact h.down_set_new hi (fun j => if_neg (fun hc => hdir hc.1))
  · intro j hj
    have hji : j ≠ i := by
      rintro rfl
      simp [LinkGraph.addLeaf] at hj
    show ((s.set i n).inode j).up = _
    rw [set_inode_of_ne s n hji]
    rfl
  · intro j _
    refine (congrFun (set_field Inode.nlink i n) j).trans ?_
    rw [hn]
    rfl

theorem newDir (h : Links strict safe pend s) (hi : (s.inode i).type = .free) (h0 : i ≠ 0)
    (hm : i < s.ninodes) (hp : pend i = 0) (hd : (s.inode d).type = .dir) (hl : (s.inode d).nlink ≠ 0)
    (hpd : pend d = 0) (hdir : n.type = .dir) (hn : n.nlink = 1) (hgen : n.gen = (s.inode i).gen)
    (hents : n.ents = [⟨i, dot, (s.inode i).gen⟩, ⟨d, dotdot, (s.inode d).gen⟩]) :
    Links strict safe (LinkGraph.bump pend i) (s.set i n) := by
  have hkd : (graph s).kind d = .dir := FileType.kind_dir.mpr hd
  have hlinked := h.linked hd hpd hl
  refine h.setNew hi h0 ?_ ?_ (by omega) hgen ?_
  · refine (h.tree.addDir (FileType.kind_free.mpr hi) (mem_range.mpr hm) hp hkd
      (fun _ => hlinked)).congr ?_ ?_ ?_ ?_
    · refine (set_field (fun m => m.type.kind) i n).trans ?_
      rw [hdir]
      rfl
    · exact h.down_set_new hi (fun j => by simp [Inode.links, hents])
    · intro j _
      refine (congrFun (set_field Inode.up i n) j).trans ?_
      rw [show n.up = d by simp [Inode.up, hents]]
      rfl
    · intro j _
      refine (congrFun (set_field Inode.nlink i n) j).trans ?_
      rw [hn]
      rfl
  · intro _
    rw [hents]
    exact ⟨_, d, _, [], rfl, h.dir_ne_zero hd, fun e he => absurd he List.not_mem_nil, by decide⟩
  · intro _ _ e he _
    rw [hents] at he
    rcases List.mem_cons.mp he with rfl | he
    · rfl
    · rw [List.mem_singleton.mp he]

theorem linkDir (name : Name) (h : Links strict safe (LinkGraph.bump pend i) s)
    (hd : (s.inode d).type = .dir) (hi : (s.inode i).type = .dir) (hroot : i ≠ rootino)
    (hup : (s.inode i).up = d) (hin : (graph s).inDeg (range s.ninodes) i = 0)
    (hname : name ≠ dot ∧ name ≠ dotdot)
    (hsize : (freeSlot (s.inode d).ents + 1) * direntSize ≤ maxfile * bsize)
    (hl : (s.inode d).nlink ≠ 0) (hp : pend d = 0) :
    Links strict safe pend (s.set d
      { s.inode d with
        ents := addEntry (s.inode d).ents ⟨i, name, (s.inode i).gen⟩, nlink := (s.inode d).nlink + 1 }) := by
  have hkd : (graph s).kind d = .dir := FileType.kind_dir.mpr hd
  have hki : (graph s).kind i = .dir := FileType.kind_dir.mpr hi
  have hdi : d ≠ i := fun hc => h.tree.up_ne i hki hroot (show (s.inode i).up = i from hup.trans hc)
  have hpd : LinkGraph.bump pend i d = 0 := (LinkGraph.bump_of_ne pend hdi).trans hp
  have hlinked := h.linked hd hpd hl
  obtain ⟨hshape, hupd, -⟩ := (h.shape d hd).add (e := ⟨i, name, (s.inode i).gen⟩)
    (h.dir_ne_zero hd) hname hsize
  refine h.change d _ _ (h.tree.linkDir hki hroot hup hin hkd hlinked)
    (h.links_add (e := ⟨i, name, (s.inode i).gen⟩) hd (h.dir_ne_zero hi) hname hsize)
    (fun _ => hshape) hupd (h.dir_nlink_lt hd hpd) ?_
  intro hs _ e he he0
  rcases mem_addEntry he with rfl | he
  · rfl
  · exact h.gen hs d hd e he he0

end Links

end Xv6.Inodes
