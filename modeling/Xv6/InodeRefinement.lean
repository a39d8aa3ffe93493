import Xv6.EntryCalls
import Xv6.PathResolution

namespace Xv6.Blocks

open Xv6.Lib Xv6.Lib.LinkGraph
open Xv6.Inodes (State Inode Dirent set_same set_inode_self set_inode_of_ne)

variable {ι : Type} {v : Vol} {s : State ι} {q : Nat → Nat} {i : Nat} {E : String → State ι → Prop}
  {path : List UInt8}

/-- What an entry says in the directory's table. -/
def slot (e : Dirent) : Option (List UInt8 × Nat) := if e.inum = 0 then none else some (e.name, e.inum)

/-- The inode layer has the inodes and directories of the volume, and `q` more references. -/
structure Shows (v : Vol) (q : Nat → Nat) (s : State ι) : Prop where
  type : ∀ i, (s.inode i).type = (v.cur i).type
  nlink : ∀ i, (s.inode i).nlink = (v.cur i).nlink
  ents : ∀ i, (v.cur i).type = .dir → (s.inode i).ents.map slot = v.table i
  ref : ∀ i, (s.inode i).ref = (v.itable i).ref + q i
  read : ∀ i, (s.inode i).valid = true → 0 < (s.inode i).ref → (s.inode i).type ≠ .free

/-- The panics that the inode layer can end a walk with. -/
def Stops (e : String) (_ : State ι) : Prop := e = "iget: no inodes" ∨ e = "ilock: no type"

theorem Shows.set (h : Shows v q s) {n : Inode} {q' : Nat → Nat} (ht : n.type = (s.inode i).type)
    (hl : n.nlink = (s.inode i).nlink) (he : n.ents = (s.inode i).ents) (hr : n.ref = (v.itable i).ref + q' i)
    (hq : ∀ j, j ≠ i → q' j = q j) (hv : n.valid = true → 0 < n.ref → n.type ≠ .free) : Shows v q' (s.set i n) := by
  refine ⟨fun j => (set_same Inode.type ht j).trans (h.type j),
    fun j => (set_same Inode.nlink hl j).trans (h.nlink j),
    fun j hj => (congrArg _ (set_same Inode.ents he j)).trans (h.ents j hj), fun j => ?_, fun j => ?_⟩ <;>
    by_cases hj : j = i
  · rw [hj, set_inode_self, hr]
  · rw [set_inode_of_ne s n hj, hq j hj]
    exact h.ref j
  · rw [hj, set_inode_self]
    exact hv
  · rw [set_inode_of_ne s n hj]
    exact h.read j

theorem Shows.ref_bump (h : Shows v q s) (i : Nat) : (s.inode i).ref + 1 = (v.itable i).ref + bump q i i := by
  rw [bump_self, h.ref]
  rfl

theorem iget_shows (h : Shows v q s) (i : Nat) : Ensures (Inodes.iget i) s (fun _ => Shows v (bump q i)) Stops := by
  have href := h.ref_bump i
  unfold Inodes.iget
  apply Ensures.bind_get
  dsimp only
  split
  · next hr => exact .set (h.set rfl rfl rfl href (fun _ => bump_of_ne q) fun hv _ => h.read i hv hr)
  · split
    · exact .throw (.inl rfl)
    · refine .set (h.set rfl rfl rfl ?_ (fun _ => bump_of_ne q) fun hv => absurd hv Bool.false_ne_true)
      show 1 = _
      omega

theorem idup_shows (h : Shows v q s) (hr : 0 < (v.itable i).ref) :
    Ensures (Inodes.idup i) s (fun _ => Shows v (bump q i)) E := by
  have hpos : 0 < (s.inode i).ref := h.ref i ▸ Nat.add_pos_left hr _
  exact .modify (h.set rfl rfl rfl (h.ref_bump i) (fun _ => bump_of_ne q) fun hv _ => h.read i hv hpos)

theorem ilock_shows (h : Shows v (bump q i) s) : Ensures (Inodes.ilock i) s (fun _ => Shows v (bump q i)) Stops := by
  have href := h.ref i
  rw [bump_self] at href
  unfold Inodes.ilock
  apply Ensures.bind_get
  dsimp only
  rw [if_neg (by omega)]
  split
  · exact .pure h
  · apply Ensures.bind_set
    split
    · exact .throw (.inr rfl)
    · next hfree => exact .pure (h.set rfl rfl rfl (h.ref i) (fun _ _ => rfl) fun _ _ => hfree)

theorem Steady.iput_shows (hv : Steady v) (h : Shows v (bump q i) s) :
    Ensures (Inodes.iput i) s (fun _ => Shows v q) E := by
  have href := h.ref i
  rw [bump_self] at href
  apply Ensures.modify
  dsimp only
  rw [if_neg]
  · refine h.set rfl rfl rfl ?_ (fun _ hj => (bump_of_ne q hj).symm) fun hvalid _ => h.read i hvalid (by omega)
    show (s.inode i).ref - 1 = _
    omega
  · rintro ⟨hone, hvalid, hlink⟩
    have hpos := hv.linked i (h.type i ▸ h.read i hvalid (by omega)) (h.nlink i ▸ hlink)
    omega

theorem find_slots (ents : List Dirent) (c : List UInt8) :
    (Slots.lookup (ents.map slot) c).map Prod.snd =
      (ents.findIdx? fun e => e.inum ≠ 0 ∧ e.name = c).map fun k => (ents.getD k .zero).inum := by
  have hslot : ∀ {e : Dirent} {j}, slot e = some (c, j) ↔ (e.inum ≠ 0 ∧ e.name = c) ∧ e.inum = j := by
    intro e j
    by_cases h0 : e.inum = 0 <;> simp [slot, h0]
  obtain ⟨hnone, hno⟩ | ⟨k, j, hsome, hk, hfirst⟩ := Slots.lookup_cases (ents.map slot) c
  · rw [hnone, List.findIdx?_eq_none_iff.mpr fun e he => decide_eq_false fun hc => ?_]
    · rfl
    · obtain ⟨k, hk⟩ := List.mem_iff_getElem?.mp he
      refine hno k e.inum ?_
      rw [List.getElem?_map, hk, Option.map_some, hslot.mpr ⟨hc, rfl⟩]
  · rw [List.getElem?_map] at hk
    obtain ⟨e, he, hs⟩ := Option.map_eq_some_iff.mp hk
    obtain ⟨hlt, hget⟩ := List.getElem?_eq_some_iff.mp he
    obtain ⟨hc, hj⟩ := hslot.mp hs
    have hidx : (ents.findIdx? fun e => e.inum ≠ 0 ∧ e.name = c) = some k := by
      refine List.findIdx?_eq_some_iff_getElem.mpr ⟨hlt, decide_eq_true (hget ▸ hc), fun l hl hyes => ?_⟩
      refine hfirst l ents[l].inum hl ?_
      rw [List.getElem?_map, List.getElem?_eq_getElem (hl.trans hlt), Option.map_some,
        hslot.mpr ⟨of_decide_eq_true hyes, rfl⟩]
    rw [hsome, hidx, Option.map_some, Option.map_some, List.getD_eq_getElem?_getD, he, Option.getD_some, hj]

theorem dirlookup_shows (h : Shows v q s) (hd : (v.cur i).type = .dir) (c : List UInt8) :
    Ensures (Inodes.dirlookup i c) s
      (fun r t => r.map Prod.fst = v.find i c ∧ Shows v (r.elim q fun x => bump q x.1) t) Stops := by
  unfold Inodes.dirlookup
  apply Ensures.bind_get
  rw [Vol.find, ← h.ents i hd, find_slots]
  dsimp only
  rw [if_neg (not_not.mpr ((h.type i).trans hd))]
  cases (s.inode i).ents.findIdx? fun e => e.inum ≠ 0 ∧ e.name = c with
  | none => exact .pure ⟨rfl, h⟩
  | some k => exact (iget_shows h _).seq fun _ t ht => .pure ⟨rfl, ht⟩

theorem addEntry_slots (ents : List Dirent) {e : Dirent} (h0 : e.inum ≠ 0) :
    (Inodes.addEntry ents e).map slot = Slots.insert (ents.map slot) e.name e.inum := by
  have hslot : slot e = some (e.name, e.inum) := if_neg h0
  have hempty : (fun e => (slot e).isNone) = fun e : Dirent => decide (e.inum = 0) := by
    funext e
    by_cases he : e.inum = 0 <;> simp [slot, he]
  have hfree : Slots.freeSlot (ents.map slot) = Inodes.freeSlot ents := by
    rw [Slots.freeSlot, Inodes.freeSlot, List.findIdx?_map, List.length_map, Function.comp_def, hempty]
  rw [Inodes.addEntry, Slots.insert, hfree, List.length_map, ← hslot]
  split_ifs
  · rw [List.map_set]
  · rw [List.map_append, List.map_singleton]

/-- Both layers put a new entry into the same slot of the directory. -/
theorem dirlink_agrees (h : IsDir v i) (hs : Shows v q s) (name : CName) {inum : Nat} (hpos : 0 < inum)
    (hlt : inum < 2 ^ 16) (hnew : v.lookup i name = none) :
    Ensures (dirlink i name inum) v (fun r w =>
      Ensures (Inodes.dirlink i (nameOf name) inum) s (fun r' t =>
        r = true → r' = true → (t.inode i).ents.map slot = w.table i) E) (fun e _ => v.NoInodes e) := by
  have htype : (v.cur i).type = .dir := (congrArg Dinode.type (Vol.cur_active h.active)).trans h.type
  have hents := hs.ents i htype
  have hno : ∀ e ∈ (s.inode i).ents, e.inum ≠ 0 → e.name ≠ nameOf name := by
    intro e he h0 hname
    obtain ⟨k, hk⟩ := List.mem_iff_getElem?.mp he
    refine Slots.lookup_eq_none_iff.mp (Option.map_eq_none_iff.mp hnew) k e.inum ?_
    rw [← hents, List.getElem?_map, hk, Option.map_some, slot, if_neg h0, hname]
  refine (dirlink_added h name inum).imp (fun r w hw => ?_) fun _ _ he => he.1
  refine (Inodes.dirlink_absent ((hs.type i).trans htype) hno hlt).post fun r' t ht hr hr' => ?_
  obtain ⟨room, ht⟩ := ht
  rw [if_pos hr'] at ht
  rw [ht.2, set_inode_self, (hw.entry hr).table_insert hpos hlt h hw.dir.active, ← hents]
  exact addEntry_slots _ (Nat.ne_of_gt hpos)

theorem elem_eq (hp : (0 : UInt8) ∉ path) : path.takeWhile inElem = path.takeWhile (· ≠ Inodes.slash) ∧
    path.dropWhile inElem = path.dropWhile (· ≠ Inodes.slash) := by
  induction path with
  | nil => exact ⟨rfl, rfl⟩
  | cons c path ih =>
    rw [List.mem_cons, not_or] at hp
    have hc : inElem c = decide (c ≠ Inodes.slash) := decide_eq_decide.mpr (and_iff_left (Ne.symm hp.1))
    rw [List.takeWhile_cons, List.takeWhile_cons, List.dropWhile_cons, List.dropWhile_cons, hc, (ih hp.2).1,
      (ih hp.2).2]
    exact ⟨rfl, rfl⟩

theorem skipelem_eq (hp : (0 : UInt8) ∉ path) (name : CName) :
    Inodes.skipelem path = (skipelem path name).map fun x => (nameOf x.2, x.1) := by
  have hz : (0 : UInt8) ∉ path.dropWhile isSlash := not_mem_dropWhile hp
  have hs : path.dropWhile (· = Inodes.slash) = path.dropWhile isSlash := rfl
  rw [Inodes.skipelem, skipelem, hs]
  cases hl : path.dropWhile isSlash with
  | nil => rfl
  | cons b bs =>
    rw [hl] at hz
    have hno : ∀ c ∈ (b :: bs).takeWhile inElem, c ≠ 0 := fun c hc h0 =>
      hz (h0 ▸ (List.takeWhile_sublist inElem).mem hc)
    dsimp only
    rw [if_neg (mt (headD_eq_zero hz).mp (List.cons_ne_nil _ _)), Option.map_some, nameOf_copyElem hno,
      (elem_eq hz).1, (elem_eq hz).2]
    rfl

/-- The references that a lookup with the result `r` leaves behind. -/
def left (r : Option (Nat × List UInt8)) : Nat → Nat := r.elim (fun _ => 0) fun x => bump (fun _ => 0) x.1

theorem Steady.namexLoop_shows (hv : Steady v) (parent : Bool) (fuel : Nat) {ip : Nat}
    (h : Shows v (bump (fun _ => 0) ip) s) (hp : (0 : UInt8) ∉ path) (hf : path.length < fuel) (name : List UInt8) :
    Ensures (Inodes.namexLoop parent fuel ip name path) s (fun r t =>
      r.map Prod.fst = v.walk parent ip (components path) ∧ Shows v (left r) t ∧
        (parent = true → ∀ x ∈ r, (components path).getLast? = some x.2)) Stops := by
  have hnone : ∀ {l : Option (List UInt8)}, parent = true → ∀ x ∈ (none : Option (Nat × List UInt8)), l = some x.2 :=
    fun _ x hx => absurd hx (Option.not_mem_none x)
  induction fuel generalizing ip s path name with
  | zero => omega
  | succ fuel ih =>
    rw [Inodes.namexLoop, skipelem_eq hp fun _ => 0]
    obtain ⟨hskip, hnil⟩ | ⟨rest, name', hskip, hcons, hrest, hlt, hend⟩ := skipelem_cases hp fun _ => 0
    · rw [hskip, hnil, v.walk_nil]
      cases parent with
      | true => exact (hv.iput_shows h).seq fun _ t ht => .pure ⟨rfl, ht, hnone⟩
      | false => exact .pure ⟨rfl, h, fun hc => absurd hc Bool.false_ne_true⟩
    · rw [hskip, hcons]
      refine (ilock_shows h).seq fun _ t ht => .bind_get ?_
      by_cases hdir : (v.cur ip).type = .dir
      · rw [if_neg (not_not.mpr ((ht.type ip).trans hdir))]
        have hlast : parent = true ∧ rest = [] ↔ parent = true ∧ components rest = [] := by
          rw [← hend, headD_eq_zero hrest]
        split_ifs with hstop
        · obtain ⟨rfl, hnil⟩ := hlast.mp hstop
          rw [hnil]
          refine .pure ⟨?_, ht, fun _ x hx => ?_⟩
          · exact ((v.resolveParent_single ip (nameOf name')).trans (if_pos hdir)).symm
          · cases hx
            rfl
        · have hmore : parent = true → components rest ≠ [] := fun hpar hnil => hstop (hlast.mpr ⟨hpar, hnil⟩)
          have henter : v.enter ip (nameOf name') = v.find ip (nameOf name') := if_pos hdir
          rw [Vol.walk_cons hmore, henter]
          refine (dirlookup_shows ht hdir (nameOf name')).seq fun r u hu => ?_
          rw [← hu.1]
          cases r with
          | none => exact (hv.iput_shows hu.2).seq fun _ w hw => .pure ⟨rfl, hw, hnone⟩
          | some x =>
            -- the directory is given back after its entry has been taken
            have hput : Shows v (bump (bump (fun _ => 0) x.1) ip) u := by
              rw [Inodes.bump_comm]
              exact hu.2
            refine (hv.iput_shows hput).seq fun _ w hw => ?_
            refine (ih hw hrest (by omega) (nameOf name')).post fun r y hy => ⟨hy.1, hy.2.1, fun hpar => ?_⟩
            rw [List.getLast?_cons_of_ne_nil (hmore hpar)]
            exact hy.2.2 hpar
      · rw [if_pos fun hc => hdir ((ht.type ip).symm.trans hc)]
        exact (hv.iput_shows ht).seq fun _ w hw => .pure ⟨(Vol.walk_not_dir parent hdir _ _).symm, hw, hnone⟩

theorem Shows.reached {r : Option (Nat × List UInt8)} {w : Fs} (h : Shows v (left r) s)
    (hr : Reached v (r.map Prod.fst) w) : Shows w.vol (fun _ => 0) s := by
  have hfiles : SameFiles v w.vol ∧ ∀ i, (v.itable i).ref + left r i = (w.vol.itable i).ref := by
    cases r with
    | none => exact ⟨hr.toSameFiles, fun i => (hr.toKept.ref i).symm⟩
    | some x => exact ⟨hr.toSameFiles, fun i => by rw [hr.toGained.ref]; simp [left, bump, Function.update_apply]⟩
  refine ⟨fun i => ?_, fun i => ?_, fun i hi => ?_, fun i => (h.ref i).trans (hfiles.2 i), h.read⟩
  · rw [hfiles.1.cur, h.type]
  · rw [hfiles.1.cur, h.nlink]
  · rw [hfiles.1.table]
    exact h.ents i (hfiles.1.cur i ▸ hi)

/-- Both layers follow a path to the same inode, and agree again afterwards. -/
theorem namex_agrees (hv : Steady v) (h : Shows v (fun _ => 0) s) {p : ι} {pr : Inodes.Proc} (hs : s.proc p = some pr)
    (hcwd : 0 < (v.itable pr.cwd).ref) (hp : (0 : UInt8) ∉ path) (parent : Bool) (name : CName) :
    Ensures (namex pr.cwd path parent name) ⟨v, fun _ => false⟩ (fun r w =>
      Ensures (Inodes.namex p path parent) s (fun r' t => r'.map Prod.fst = r.1 ∧ Shows w.vol (fun _ => 0) t ∧
        (parent = true → ∀ x ∈ r', nameOf r.2 = x.2)) Stops) (v.Stuck (startOf pr.cwd path)) := by
  have hlow : Ensures (Inodes.namex p path parent) s (fun r t =>
      r.map Prod.fst = v.walk parent (startOf pr.cwd path) (components path) ∧ Shows v (left r) t ∧
        (parent = true → ∀ x ∈ r, (components path).getLast? = some x.2)) Stops := by
    have hroot : path.head? = some Inodes.slash ↔ path.headD 0 = slash := by
      cases path with
      | nil => decide
      | cons c path => exact Option.some_inj
    unfold Inodes.namex startOf
    apply Ensures.bind_get
    rw [hs]
    dsimp only
    by_cases hc : path.headD 0 = slash
    · rw [if_pos (hroot.mpr hc), if_pos hc]
      exact (iget_shows h _).seq fun _ t ht => hv.namexLoop_shows parent _ ht hp (Nat.lt_succ_self _) []
    · rw [if_neg (mt hroot.mp hc), if_neg hc]
      exact (idup_shows h hcwd).seq fun _ t ht => hv.namexLoop_shows parent _ ht hp (Nat.lt_succ_self _) []
  refine (namex_ensures hv hcwd hp parent name).post fun r w ⟨hr, hreach, hname⟩ => ?_
  refine hlow.post fun r' t ⟨hr', ht, hname'⟩ => ?_
  have hsame := hr'.trans hr.symm
  refine ⟨hsame, ht.reached (hsame ▸ hreach), fun hpar x hx => ?_⟩
  rw [← hsame, hx] at hname
  exact Option.some.inj ((hname hpar (Option.some_ne_none _)).symm.trans (hname' hpar x hx))

end Xv6.Blocks
