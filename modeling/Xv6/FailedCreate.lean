import Xv6.NameCalls

namespace Xv6.Blocks

open Xv6.Lib Function
open Xv6.Inodes (FileType short)

variable {v w u x : Vol} {cwd dp ip i j : Nat} {path : List UInt8} {name : CName}

/-- One reference to `ip` more than in `v`, and the same files. -/
structure Held (ip : Nat) (v w : Vol) : Prop extends SameFiles v w, Gained ip v w where
  sound : Sound none w

structure Still (v w : Vol) : Prop extends SameFiles v w, Kept v w where
  sound : Sound none w

def Vol.Leads (v : Vol) : Option Nat → Vol → Prop
  | none, w => Still v w
  | some ip, w => Held ip v w

theorem Reached.leads {s : Fs} : ∀ {r : Option Nat}, Reached v r s → v.Leads r s.vol
  | none, h => ⟨h.toSameFiles, h.toKept, h.sound⟩
  | some _, h => ⟨h.toSameFiles, h.toGained, h.sound⟩

theorem alone_ensures {α : Type} {m : F α} {Q : α → Vol → Prop}
    (h : Returns m ⟨v, fun _ => false⟩ fun a s => Q a s.vol) : Returns (alone m) v Q := by
  unfold Returns Ensures alone at *
  cases hm : m ⟨v, fun _ => false⟩ with
  | ok a s => simpa only [hm] using h
  | error e s => trivial

theorem namei_leads (hv : Steady v) (hcwd : 0 < (v.itable cwd).ref) (hp : (0 : UInt8) ∉ path)
    (name : CName) : Returns (alone (namei cwd path name)) v v.Leads :=
  alone_ensures ((namei_ensures hv hcwd hp name).returns.post fun _ _ hr => hr.2.leads)

theorem nameiparent_leads (hv : Steady v) (hcwd : 0 < (v.itable cwd).ref) (hp : (0 : UInt8) ∉ path)
    (name : CName) :
    Returns (alone (nameiparent cwd path name)) v fun r w =>
      v.Leads r.1 w ∧ ∀ dp, r.1 = some dp →
        v.resolveParent (startOf cwd path) (components path) = some dp ∧ (v.cur dp).type = .dir ∧
        (components path).getLast? = some (nameOf r.2) := by
  refine alone_ensures ((nameiparent_ensures hv hcwd hp name).returns.post fun r s hr => ?_)
  refine ⟨hr.2.1.leads, fun dp hdp => ?_⟩
  have hpar := hr.1.symm.trans hdp
  refine ⟨hpar, ?_, hr.2.2 (hdp ▸ Option.some_ne_none _)⟩
  rw [Vol.resolveParent] at hpar
  split at hpar
  · cases hpar
  · exact of_decide_eq_true (Option.filter_eq_some_iff.mp hpar).2

theorem Held.ref_lt (h : Held ip v w) : (v.itable ip).ref < (w.itable ip).ref := by
  rw [h.ref, if_pos rfl]
  exact Nat.lt_succ_self _

theorem Held.lock (h : Held ip v w) :
    Returns (ilock ip) w fun _ u => Held ip v u ∧ u.Active ip ∧ (v.cur ip).type ≠ .free :=
  (ilock_loaded h.sound ip).returns.post fun _ _ hu =>
    ⟨⟨h.toSameFiles.trans hu.toSameFiles, h.toGained.keep hu.toKept, hu.sound⟩, hu.here, h.cur ip ▸ hu.live⟩

theorem Held.put (hv : Steady v) (h : Held ip v w) : Returns (iput ip) w fun _ u => Still v u :=
  (iput_closed h.sound (hv.not_last (h.toSameFiles.file ip) h.sound h.ref_lt)).post fun _ _ hu =>
    ⟨h.toSameFiles.trans hu.toSameFiles, h.toGained.lost hu.toLost, hu.sound⟩

theorem Held.isDir (hv : Steady v) (h : Held dp v w) (ha : w.Active dp) (ht : (v.cur dp).type = .dir) :
    IsDir w dp := by
  have hcur : w.ip dp = v.cur dp := by rw [← Vol.cur_active ha, h.cur]
  exact ⟨h.sound, ha, hcur ▸ ht, hcur ▸ hv.whole dp ht⟩

theorem Held.lookup (hv : Steady v) (h : Held dp v w) (ha : w.Active dp) (ht : (v.cur dp).type = .dir)
    (name : CName) :
    Returns (dirlookup dp name) w fun r u =>
      match r with
      | none => v.find dp (nameOf name) = none ∧ w = u
      | some y => v.find dp (nameOf name) ≠ none ∧ Opened y.1 w u := by
  refine (dirlookup_table (h.isDir hv ha ht) name).returns.post ?_
  rintro r u ⟨rfl, hu⟩
  have hfind : v.find dp (nameOf name) = none ↔ w.lookup dp name = none := by
    rw [Vol.find, ← h.toSameFiles.table, Option.map_eq_none_iff]
    exact Option.map_eq_none_iff.symm
  cases hr : w.lookup dp name with
  | none =>
    rw [hr] at hu
    exact ⟨hfind.mpr hr, hu⟩
  | some y =>
    rw [hr] at hu
    exact ⟨fun hnone => Option.some_ne_none y (hr.symm.trans (hfind.mp hnone)), hu⟩

theorem Held.exchange (hv : Steady v) (h : Held dp v w) (ho : Opened ip w u) :
    Returns (iput dp) u fun _ x => Held ip v x := by
  have hf := h.toSameFiles.trans ho.toSameFiles
  have href := ho.ref dp
  have hlt := h.ref_lt
  refine (iput_closed ho.sound (hv.not_last (hf.file dp) ho.sound (by omega))).post fun _ x hx => ?_
  exact ⟨hf.trans hx.toSameFiles, h.toGained.exchange ho.toGained hx.toLost, hx.sound⟩

theorem Vol.byteAt_of_cur (hcur : w.cur j = v.cur j) (hblk : w.blk = v.blk) (k : Nat) :
    w.byteAt j k = v.byteAt j k := by
  rw [Vol.byteAt, Vol.byteAt, Vol.ptr, Vol.ptr, hcur, hblk]

structure Counted (i : Nat) (n : Int) (v w : Vol) : Prop where
  others : ∀ j, j ≠ i → SameFile j v w
  type : (w.cur i).type = (v.cur i).type
  nlink : (w.cur i).nlink = n
  size : (w.cur i).size = (v.cur i).size
  bytes : ∀ k, k < (v.cur i).size → w.byteAt i k = v.byteAt i k

theorem Counted.same {n : Int} (h : Counted i n v w) (h' : SameFile i w u)
    (hothers : ∀ j, j ≠ i → SameFile j w u) : Counted i n v u where
  others j hj := (h.others j hj).trans (hothers j hj)
  type := h'.type.trans h.type
  nlink := h'.nlink.trans h.nlink
  size := h'.size.trans h.size
  bytes k hk := (h'.bytes k (h.size ▸ hk)).trans (h.bytes k hk)

theorem Counted.trans {m n : Int} (h : Counted i m v w) (h' : Counted i n w u) : Counted i n v u where
  others j hj := (h.others j hj).trans (h'.others j hj)
  type := h'.type.trans h.type
  nlink := h'.nlink
  size := h'.size.trans h.size
  bytes k hk := (h'.bytes k (h.size ▸ hk)).trans (h.bytes k hk)

theorem Counted.file {n : Int} (h : Counted i n v w) (hn : n = (v.cur i).nlink) (j : Nat) :
    SameFile j v w := by
  obtain rfl | hj := eq_or_ne j i
  · exact ⟨h.type, h.nlink.trans hn, h.size, h.bytes⟩
  · exact h.others j hj

theorem changeLinks_counted (h : Sound none v) (ha : v.Active i) (f : Int → Int) :
    Returns (changeLinks i f) v fun _ w =>
      Sound none w ∧ Kept v w ∧ Counted i (f (v.cur i).nlink) v w := by
  have hcount : Returns (changeLinks i f) v fun _ w => Counted i (f (v.cur i).nlink) v w := by
    unfold changeLinks
    apply Ensures.bind_modify
    apply Ensures.modify
    obtain ⟨w, hw⟩ : ∃ w, w = v.setIp i { v.ip i with nlink := f (v.ip i).nlink } := ⟨_, rfl⟩
    rw [← hw]
    have haw : ({ w with dinode := update w.dinode i (w.ip i) } : Vol).Active i :=
      hw ▸ (v.setIp_active i i _).mpr ha
    have hself : ({ w with dinode := update w.dinode i (w.ip i) } : Vol).cur i =
        { v.ip i with nlink := f (v.ip i).nlink } := by
      rw [Vol.cur_active haw, hw]
      exact v.setIp_ip_self i _
    have hother : ∀ j, j ≠ i →
        ({ w with dinode := update w.dinode i (w.ip i) } : Vol).cur j = v.cur j := by
      intro j hj
      refine Vol.cur_congr ?_ ?_
      · rw [hw]
        exact update_of_ne hj _ _
      · rw [hw]
        exact update_of_ne hj _ _
    refine ⟨fun j hj => .of_cur (hother j hj) (Vol.byteAt_of_cur (hother j hj) (hw ▸ rfl)), ?_, ?_, ?_,
      fun k _ => ?_⟩
    · rw [hself, Vol.cur_active ha]
    · rw [hself, Vol.cur_active ha]
    · rw [hself, Vol.cur_active ha]
    · rw [Vol.byteAt, Vol.byteAt, Vol.ptr, Vol.ptr, hself, Vol.cur_active ha, hw]
      rfl
  exact ((changeLinks_ensures h ha f).returns.both hcount).post fun _ _ hw => ⟨hw.1.1, hw.1.2, hw.2⟩

structure Fresh (ip : Nat) (type : FileType) (v w : Vol) : Prop extends Gained ip v w where
  sound : Sound none w
  others : ∀ j, j ≠ ip → SameFile j v w
  was : (v.cur ip).type = .free
  type_eq : (w.cur ip).type = type
  size_eq : (w.cur ip).size = 0

theorem ialloc_fresh (h : Sound none v) (type : FileType) :
    Returns (ialloc type) v fun r w =>
      match r with
      | none => w = v
      | some ip => Fresh ip type v w := by
  refine ialloc_cases rfl fun ip _ hfree => ?_
  have hnew := h.allocated hfree type
  have hother : ∀ j, j ≠ ip → (v.allocated ip type).cur j = v.cur j := fun j hj =>
    Vol.cur_congr rfl (update_of_ne hj _ _)
  have hself : (v.allocated ip type).cur ip = { Dinode.zero with type := type } := by
    rw [hnew.cur_eq]
    exact update_self _ _ _
  refine (iget_opened hnew ip).returns.post fun _ w hw => ?_
  refine ⟨⟨hw.ref, hw.active⟩, hw.sound, fun j hj => ?_, ?_, ?_, ?_⟩
  · have hsame : SameFile j v (v.allocated ip type) :=
      .of_cur (hother j hj) (Vol.byteAt_of_cur (hother j hj) rfl)
    exact hsame.trans (hw.toSameFiles.file j)
  · rw [h.cur_eq, hfree]
  · rw [hw.cur, hself]
  · rw [hw.cur, hself]
    rfl

theorem iput_others (h : Sound none v) (i : Nat) :
    Returns (iput i) v fun _ w => Sound none w ∧ Lost i v w ∧ ∀ j, j ≠ i → SameFile j v w := by
  have hothers : Returns (iput i) v fun _ w => ∀ j, j ≠ i → SameFile j v w := by
    by_cases hlast : (v.itable i).ref = 1 ∧ (v.itable i).valid = true ∧ (v.itable i).ip.nlink = 0
    · have ha : v.Active i := ⟨by omega, hlast.2.1⟩
      refine (iput_gone h.owned (h.live i (Option.some_ne_none _) ha) hlast).post ?_
      rintro _ _ rfl j hj
      exact .of_cur (Vol.gone_cur hj) (Vol.byteAt_of_cur (Vol.gone_cur hj) rfl)
    · exact (iput_closed h hlast).post fun _ _ hw j _ => hw.toSameFiles.file j
  exact ((iput_ensures h i).both hothers).post fun _ _ hw => ⟨hw.1.1, hw.1.2, hw.2⟩

/-- What the entries for a new inode leave. -/
structure Entered (dp ip : Nat) (v : Vol) (r : Bool) (w : Vol) : Prop extends Kept v w where
  sound : Sound none w
  others : ∀ j, j ≠ ip → j ≠ dp → SameFile j v w
  type : (w.cur ip).type = (v.cur ip).type
  file : (v.cur ip).type ≠ .dir → SameFile ip v w
  failed : r = false → SameFile dp v w

theorem createEntries_entered (hdp : IsDir v dp) (hne : ip ≠ dp) (type : FileType)
    (hdir : type = .dir → IsDir v ip) (name : CName) :
    Returns (createEntries dp name type ip) v (Entered dp ip v) := by
  have hlast : ∀ {w}, Sound none w → Kept v w → (∀ j, j ≠ ip → SameFile j v w) →
      (w.cur ip).type = (v.cur ip).type → ((v.cur ip).type ≠ .dir → SameFile ip v w) →
      Returns (dirlink dp name ip) w (Entered dp ip v) := by
    intro w hs hk hsame htype hfile
    have hdw := hdp.of_same hs (hk.active dp hdp.active) (hsame dp hne.symm)
    refine (dirlink_added hdw name ip).returns.post fun r u hu => ?_
    exact ⟨hk.trans hu.kept, hu.dir.sound, fun j hj hjd => (hsame j hj).trans (hu.others j hjd),
      (hu.others ip hne).type.trans htype, fun hn => (hfile hn).trans (hu.others ip hne),
      fun hr => (hsame dp hne.symm).trans (hu.failed hr)⟩
  have htype : ∀ {w}, IsDir v ip → IsDir w ip → (w.cur ip).type = (v.cur ip).type := by
    intro w hd hd'
    rw [Vol.cur_active hd.active, Vol.cur_active hd'.active, hd.type, hd'.type]
  unfold createEntries
  split
  · next hd =>
    have hdv := hdir hd
    have hfile : ∀ {w}, (v.cur ip).type ≠ .dir → SameFile ip v w := fun hn => by
      rw [Vol.cur_active hdv.active] at hn
      exact absurd hdv.type hn
    apply Ensures.bind
    refine (dirlink_added hdv dot ip).returns.post fun r w hw => ?_
    split
    · exact .pure ⟨hw.kept, hw.dir.sound, fun j hj _ => hw.others j hj, htype hdv hw.dir, hfile,
        fun _ => hw.others dp hne.symm⟩
    · apply Ensures.bind
      refine (dirlink_added hw.dir dotdot dp).returns.post fun r u hu => ?_
      have hsame : ∀ j, j ≠ ip → SameFile j v u := fun j hj => (hw.others j hj).trans (hu.others j hj)
      have hk := hw.kept.trans hu.kept
      split
      · exact .pure ⟨hk, hu.dir.sound, fun j hj _ => hsame j hj, htype hdv hu.dir, hfile,
          fun _ => hsame dp hne.symm⟩
      · exact hlast hu.dir.sound hk hsame (htype hdv hu.dir) hfile
  · exact hlast hdp.sound (Kept.refl v) (fun j _ => SameFile.refl j v) rfl fun _ => .refl ip v

/-- Every file is the same, and no inode more is allocated. -/
structure Untouched (v w : Vol) : Prop where
  files : ∀ j, (v.cur j).type ≠ .free → SameFile j v w
  free : ∀ j, (v.cur j).type = .free → (w.cur j).type = .free

theorem Untouched.of_same (h : ∀ j, SameFile j v w) : Untouched v w :=
  ⟨fun j _ => h j, fun j hj => (h j).type.trans hj⟩

theorem Still.untouched (h : Still v w) : Untouched v w := .of_same h.toSameFiles.file

theorem createFail_untouched (hv : Steady v) (hs : Sound none w) (ha : w.Active ip) (hne : ip ≠ dp)
    (hfree : (v.cur ip).type = .free) (hsame : ∀ j, j ≠ ip → SameFile j v w)
    (hone : (w.itable ip).ref = 1) (hdp : (v.itable dp).ref < (w.itable dp).ref) :
    Returns (do changeLinks ip fun _ => 0; iput ip; iput dp; return (none : Option Nat)) w
      fun r u => r = none ∧ Untouched v u := by
  refine (changeLinks_counted hs ha fun _ => 0).seq ?_
  rintro _ x ⟨hx, hk, hc⟩
  have hax := hk.active ip ha
  have hlink := hc.nlink
  rw [Vol.cur_active hax] at hlink
  refine (iput_gone hx.owned (hx.live ip (Option.some_ne_none _) hax)
    ⟨(hk.ref ip).trans hone, hax.2, hlink⟩).seq ?_
  rintro _ _ rfl
  have hgone : ∀ j, j ≠ ip → SameFile j v (x.gone ip) := fun j hj =>
    ((hsame j hj).trans (hc.others j hj)).trans
      (.of_cur (Vol.gone_cur hj) (Vol.byteAt_of_cur (Vol.gone_cur hj) rfl))
  have href : (v.itable dp).ref < ((x.gone ip).itable dp).ref := by
    rw [Vol.gone_itable hne.symm, hk.ref]
    exact hdp
  refine (iput_closed (hx.gone hax)
    (hv.not_last (hgone dp hne.symm) (hx.gone hax) href)).seq fun _ y hy => .pure ?_
  have hfreed : (y.cur ip).type = .free := by
    rw [hy.cur, Vol.gone_cur_self, Vol.gone_dinode_self]
  refine ⟨rfl, fun j hj => ?_, fun j hj => ?_⟩
  · exact (hgone j fun he => hj (he ▸ hfree)).trans (hy.toSameFiles.file j)
  · by_cases he : j = ip
    · exact he ▸ hfreed
    · exact (((hgone j he).trans (hy.toSameFiles.file j)).type).trans hj

/-- The inode `ip`, which was free in `v`, has been made. -/
structure Made (v : Vol) (t : FileType) (ip : Nat) (w : Vol) : Prop where
  sound : Sound none w
  active : w.Active ip
  was : (v.cur ip).type = .free
  type : (w.cur ip).type = t
  linked : t ≠ .dir → (w.cur ip).nlink = 1

theorem createNew_untouched (hv : Steady v) (hidle : ∀ j, (v.cur j).type = .free → (v.itable j).ref = 0)
    (h : Held dp v w) (ha : w.Active dp) (ht : (v.cur dp).type = .dir) (name : CName) (type : FileType) :
    Returns (createNew dp name type) w fun r u =>
      match r with
      | none => Untouched v u
      | some ip => Made v type ip u := by
  unfold createNew
  refine (ialloc_fresh h.sound type).seq ?_
  rintro (_ | ip) x hx
  · obtain rfl := hx
    exact (h.put hv).seq fun _ u hu => .pure hu.untouched
  · have hfree : (v.cur ip).type = .free := h.cur ip ▸ hx.was
    have hne : ip ≠ dp := by
      rintro rfl
      rw [ht] at hfree
      cases hfree
    apply Ensures.bind
    refine (ilock_loaded hx.sound ip).returns.post fun _ y hy => ?_
    refine (changeLinks_counted hy.sound hy.here fun _ => 1).seq ?_
    rintro _ z ⟨hz, hkz, hcz⟩
    have hip := hkz.active ip hy.here
    have hk := hy.toKept.trans hkz
    have hfile : ∀ j, j ≠ ip → SameFile j w z := fun j hj =>
      ((hx.others j hj).trans (hy.toSameFiles.file j)).trans (hcz.others j hj)
    have htype : (z.cur ip).type = type := by rw [hcz.type, hy.cur, hx.type_eq]
    have hsize : (z.cur ip).size = 0 := by rw [hcz.size, hy.cur, hx.size_eq]
    have hdp : IsDir z dp := (h.isDir hv ha ht).of_same hz (hk.active dp (hx.active dp ha)) (hfile dp hne.symm)
    have hdir : type = .dir → IsDir z ip := by
      intro hd
      rw [Vol.cur_active hip] at htype hsize
      exact ⟨hz, hip, htype.trans hd, by rw [hsize]; rfl⟩
    have href : ∀ j, (z.itable j).ref =
        (v.itable j).ref + (if j = dp then 1 else 0) + if j = ip then 1 else 0 := by
      intro j
      rw [hk.ref, hx.ref, h.ref]
    refine (createEntries_entered hdp hne type hdir name).seq fun ok u hu => ?_
    have hau := hu.active ip hip
    have hput : ∀ {t}, Sound none t → t.Active ip → SameFile ip u t →
        Returns (do iput dp; return some ip) t fun r t' =>
          match r with
          | none => Untouched v t'
          | some ip => Made v type ip t' := by
      intro t hs hat hsame
      refine (iput_others hs dp).seq ?_
      rintro _ t' ⟨hst, hl, hother⟩
      have hsame' := hsame.trans (hother ip hne)
      refine .pure ⟨hst, hl.active ip hat ?_, hfree, hsame'.type.trans (hu.type.trans htype), fun hd => ?_⟩
      · rw [hl.ref, if_neg hne]
        exact hat.1
      · rw [((hu.file (htype.symm ▸ hd)).trans hsame').nlink, hcz.nlink]
    cases ok with
    | true =>
      rw [if_pos rfl]
      dsimp only
      split
      · refine (changeLinks_counted hu.sound (hu.active dp hdp.active) _).seq ?_
        rintro _ t ⟨hs, hkt, hct⟩
        exact hput hs (hkt.active ip hau) (hct.others ip hne)
      · exact hput hu.sound hau (.refl ip u)
    | false =>
      rw [if_neg Bool.false_ne_true]
      have hsame : ∀ j, j ≠ ip → SameFile j v u := by
        intro j hj
        refine ((h.toSameFiles.file j).trans (hfile j hj)).trans ?_
        by_cases hjd : j = dp
        · exact hjd ▸ hu.failed rfl
        · exact hu.others j hj hjd
      have hone : (u.itable ip).ref = 1 := by
        rw [hu.ref, href, if_neg hne, if_pos rfl, hidle ip hfree]
      have hlt : (v.itable dp).ref < (u.itable dp).ref := by
        rw [hu.ref, href, if_pos rfl, if_neg hne.symm]
        omega
      refine (createFail_untouched hv hu.sound hau hne hfree hsame hone hlt).post ?_
      rintro _ t ⟨rfl, ht⟩
      exact ht

/-- What `create` leaves: nothing, a reference to a file that was there, or a new file under a name that
was not there. -/
def Vol.Created (v : Vol) (dp : Nat) (name : CName) (type : FileType) : Option Nat → Vol → Prop
  | none, w => Untouched v w
  | some ip, w => (v.find dp (nameOf name) ≠ none ∧ Held ip v w) ∨
      (v.find dp (nameOf name) = none ∧ Made v type ip w)

theorem create_created (hv : Steady v) (hidle : ∀ j, (v.cur j).type = .free → (v.itable j).ref = 0)
    (h : Held dp v w) (ht : (v.cur dp).type = .dir) (name : CName) (type : FileType) :
    Returns (create dp name type) w (v.Created dp name type) := by
  unfold create
  refine h.lock.seq ?_
  rintro _ x ⟨hx, ha, -⟩
  refine (hx.lookup hv ha ht name).seq ?_
  rintro (_ | ⟨ip, off⟩) y hy
  · obtain ⟨hnone, rfl⟩ := hy
    refine (createNew_untouched hv hidle hx ha ht name type).post ?_
    rintro (_ | ip) u hu
    · exact hu
    · exact .inr ⟨hnone, hu⟩
  · refine (hx.exchange hv hy.2).seq fun _ u hu => ?_
    refine hu.lock.seq ?_
    rintro _ t ⟨hheld, -, -⟩
    apply Ensures.bind_get
    dsimp only
    split
    · exact .pure (.inl ⟨hy.1, hheld⟩)
    · exact (hheld.put hv).seq fun _ _ hs => .pure hs.untouched

end Xv6.Blocks
