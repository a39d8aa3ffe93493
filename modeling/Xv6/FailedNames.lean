import Xv6.FailedCreate

namespace Xv6.Blocks

open Xv6.Lib
open Xv6.Inodes (FileType short)

variable {v w u x y : Vol} {cwd dp ip i j : Nat} {path old new : List UInt8} {name : CName}

theorem unlinkCounts_true (dp ip : Nat) (v : Vol) : Returns (unlinkCounts dp ip) v fun r _ => r = true := by
  have hlast : ∀ w, Returns (do iput dp; changeLinks ip fun n => short (n - 1); iput ip; return true) w
      fun r _ => r = true := by
    intro w
    refine (Ensures.any _ _).seq fun _ _ _ => ?_
    refine (Ensures.any _ _).seq fun _ _ _ => ?_
    exact (Ensures.any _ _).seq fun _ _ _ => .pure rfl
  unfold unlinkCounts
  apply Ensures.bind_get
  dsimp only
  split
  · exact (Ensures.any _ _).seq fun _ w _ => hlast w
  · exact hlast v

theorem unlinkEntry_untouched (hv : Steady v) (h : Held dp v w) (ho : Opened ip w u) (off : Nat) :
    Returns (unlinkEntry dp ip off) u fun r t => r = false → Untouched v t := by
  unfold unlinkEntry
  apply Ensures.bind
  refine (ilock_loaded ho.sound ip).returns.post fun _ x hx => ?_
  apply Ensures.bind_get
  split
  · exact .throw trivial
  · apply Ensures.bind
    refine (unlinkBlocked_ensures hx.sound hx.here).returns.post ?_
    rintro blocked x rfl
    split
    · have hg := ho.toGained.keep hx.toKept
      have hf := ho.toSameFiles.trans hx.toSameFiles
      have href : (v.itable ip).ref < (x.itable ip).ref := by
        rw [hg.ref, if_pos rfl, h.ref]
        omega
      refine (iput_closed hx.sound
        (hv.not_last ((h.toSameFiles.trans hf).file ip) hx.sound href)).seq fun _ y hy => ?_
      have hheld : Held dp v y :=
        ⟨h.toSameFiles.trans (hf.trans hy.toSameFiles), h.toGained.keep (hg.lost hy.toLost), hy.sound⟩
      exact (hheld.put hv).seq fun _ t ht => .pure fun _ => ht.untouched
    · refine (Ensures.any _ _).seq fun r y _ => ?_
      split
      · exact .throw trivial
      · refine (unlinkCounts_true dp ip y).post ?_
        rintro _ t rfl hr
        cases hr

theorem unlink_untouched (hv : Steady v) (h : Held dp v w) (ht : (v.cur dp).type = .dir) (name : CName) :
    Returns (unlink dp name) w fun r u => r = false → Untouched v u := by
  unfold unlink
  refine h.lock.seq ?_
  rintro _ x ⟨hx, ha, -⟩
  split
  · exact (hx.put hv).seq fun _ _ hu => .pure fun _ => hu.untouched
  · refine (hx.lookup hv ha ht name).seq ?_
    rintro (_ | ⟨ip, off⟩) y hy
    · obtain ⟨-, rfl⟩ := hy
      exact (hx.put hv).seq fun _ _ hu => .pure fun _ => hu.untouched
    · exact unlinkEntry_untouched hv hx hy.2 off

theorem unlinkPath_untouched (hv : Steady v) (hcwd : 0 < (v.itable cwd).ref) (hp : (0 : UInt8) ∉ path)
    (name : CName) : Returns (unlinkPath cwd path name) v fun r u => r = false → Untouched v u := by
  unfold unlinkPath
  refine (nameiparent_leads hv hcwd hp name).seq ?_
  rintro ⟨_ | dp, name⟩ w ⟨hw, hdir⟩
  · exact .pure fun _ => Still.untouched hw
  · exact unlink_untouched hv hw (hdir dp rfl).2.1 name

structure Intact (v w : Vol) : Prop extends Kept v w where
  sound : Sound none w
  files : ∀ j, SameFile j v w

theorem Still.intact (h : Still v w) : Intact v w := ⟨h.toKept, h.sound, h.toSameFiles.file⟩

theorem short_back {n : Int} (h : short n = n) : short (short (n + 1) - 1) = n := by
  unfold short at *
  omega

section Link

variable (hv : Steady v) (hg : Gained ip v w)

include hv hg

theorem Steady.counted {n : Int} (hs : Sound none w) (hc : Counted ip n v w) : Steady w := by
  have htype : ∀ i, (w.cur i).type = (v.cur i).type := by
    intro i
    by_cases hi : i = ip
    · exact hi ▸ hc.type
    · exact (hc.others i hi).type
  refine ⟨hs, fun i ht => ?_, fun i ht hn => ?_⟩
  · have hsize : (w.cur i).size = (v.cur i).size := by
      by_cases hi : i = ip
      · exact hi ▸ hc.size
      · exact (hc.others i hi).size
    rw [hsize]
    exact hv.whole i (htype i ▸ ht)
  · rw [hg.ref]
    split_ifs with hi
    · exact Nat.succ_pos _
    · exact hv.linked i (htype i ▸ ht) ((hc.others i hi).nlink ▸ hn)

theorem linkBad_untouched (hshort : short (v.cur ip).nlink = (v.cur ip).nlink)
    (hc : Counted ip (short ((v.cur ip).nlink + 1)) v w) (hi : Intact w u) :
    Returns (linkBad ip) u fun _ t => Untouched v t := by
  unfold linkBad
  apply Ensures.bind
  refine (ilock_loaded hi.sound ip).returns.post fun _ x hx => ?_
  have hfiles : ∀ j, SameFile j w x := fun j => (hi.files j).trans (hx.toSameFiles.file j)
  have hcx := hc.same (hfiles ip) fun j _ => hfiles j
  refine (changeLinks_counted hx.sound hx.here fun n => short (n - 1)).seq ?_
  rintro _ y ⟨hsy, hky, hcy⟩
  rw [hcx.nlink, short_back hshort] at hcy
  have hsame := (hcx.trans hcy).file rfl
  have href : (v.itable ip).ref < (y.itable ip).ref := by
    rw [hky.ref, hx.toKept.ref, hi.ref, hg.ref, if_pos rfl]
    exact Nat.lt_succ_self _
  refine (iput_closed hsy (hv.not_last (hsame ip) hsy href)).seq fun _ t ht => ?_
  exact .pure (.of_same fun j => (hsame j).trans (ht.toSameFiles.file j))

theorem linkEntry_untouched (hs : Sound none w) (hcwd : 0 < (v.itable cwd).ref) (hp : (0 : UInt8) ∉ new)
    (hshort : short (v.cur ip).nlink = (v.cur ip).nlink)
    (hc : Counted ip (short ((v.cur ip).nlink + 1)) v w) (name : CName) :
    Returns (linkEntry cwd ip new name) w fun r t => r = false → Untouched v t := by
  have hst := hv.counted hg hs hc
  have hbad : ∀ {u}, Intact w u → Returns (linkBad ip) u fun r t => r = false → Untouched v t :=
    fun hi => (linkBad_untouched hv hg hshort hc hi).post fun _ _ ht _ => ht
  have hcwdw : 0 < (w.itable cwd).ref := by
    rw [hg.ref]
    omega
  unfold linkEntry
  refine (nameiparent_leads hst hcwdw hp name).seq ?_
  rintro ⟨_ | dp, name⟩ x ⟨hx, hdir⟩
  · exact hbad (Still.intact hx)
  · refine (Held.lock hx).seq ?_
    rintro _ y ⟨hy, ha, -⟩
    apply Ensures.bind
    refine (dirlink_added (hy.isDir hst ha (hdir dp rfl).2.1) name ip).returns.post fun r z hz => ?_
    cases r with
    | true =>
      rw [if_pos rfl]
      refine (Ensures.any _ _).seq fun _ _ _ => ?_
      exact (Ensures.any _ _).seq fun _ _ _ => .pure nofun
    | false =>
      rw [if_neg Bool.false_ne_true]
      have hfiles : ∀ j, SameFile j w z := by
        intro j
        refine (hy.toSameFiles.file j).trans ?_
        by_cases hj : j = dp
        · exact hj ▸ hz.failed rfl
        · exact hz.others j hj
      have hgz := hy.toGained.keep hz.kept
      have href : (w.itable dp).ref < (z.itable dp).ref := by
        rw [hgz.ref, if_pos rfl]
        exact Nat.lt_succ_self _
      refine (iput_closed hz.dir.sound (hst.not_last (hfiles dp) hz.dir.sound href)).seq fun _ t ht => ?_
      exact hbad ⟨hgz.lost ht.toLost, ht.sound, fun j => (hfiles j).trans (ht.toSameFiles.file j)⟩

end Link

theorem link_untouched (hv : Steady v) (hshort : ∀ j, short (v.cur j).nlink = (v.cur j).nlink)
    (hcwd : 0 < (v.itable cwd).ref) (hold : (0 : UInt8) ∉ old) (hnew : (0 : UInt8) ∉ new) (name : CName) :
    Returns (link cwd old new name) v fun r u => r = false → Untouched v u := by
  unfold link
  refine (namei_leads hv hcwd hold name).seq ?_
  rintro (_ | ip) w hw
  · exact .pure fun _ => Still.untouched hw
  · refine (Held.lock hw).seq ?_
    rintro _ x ⟨hx, ha, -⟩
    apply Ensures.bind_get
    split
    · exact (hx.put hv).seq fun _ _ hu => .pure fun _ => hu.untouched
    · refine (changeLinks_counted hx.sound ha fun n => short (n + 1)).seq ?_
      rintro _ y ⟨hy, hk, hc⟩
      have hsame := hx.toSameFiles.file
      rw [(hsame ip).nlink] at hc
      have hcv : Counted ip (short ((v.cur ip).nlink + 1)) v y := by
        refine ⟨fun j hj => (hsame j).trans (hc.others j hj), hc.type.trans (hsame ip).type, hc.nlink,
          hc.size.trans (hsame ip).size, fun k hk => ?_⟩
        exact (hc.bytes k ((hsame ip).size ▸ hk)).trans ((hsame ip).bytes k hk)
      exact linkEntry_untouched hv (hx.toGained.keep hk) hy hcwd hnew (hshort ip) hcv name

theorem chdirInode_untouched (hv : Steady v) (hcwd : 0 < (v.itable cwd).ref) (hp : (0 : UInt8) ∉ path)
    (name : CName) : Returns (chdirInode cwd path name) v fun r u => r = none → Untouched v u := by
  unfold chdirInode
  refine (namei_leads hv hcwd hp name).seq ?_
  rintro (_ | ip) w hw
  · exact .pure fun _ => Still.untouched hw
  · refine (Held.lock hw).seq ?_
    rintro _ x ⟨hx, -, -⟩
    apply Ensures.bind_get
    split
    · exact (hx.put hv).seq fun _ _ hu => .pure fun _ => hu.untouched
    · exact (Ensures.any _ _).seq fun _ _ _ => .pure nofun

theorem openFound_held (hv : Steady v) (hcwd : 0 < (v.itable cwd).ref) (hp : (0 : UInt8) ∉ path)
    (name : CName) (omode : Nat) :
    Returns (openFound cwd path name omode) v fun r u =>
      match r with
      | none => Untouched v u
      | some ip => Held ip v u := by
  unfold openFound
  refine (namei_leads hv hcwd hp name).seq ?_
  rintro (_ | ip) w hw
  · exact .pure (Still.untouched hw)
  · refine (Held.lock hw).seq ?_
    rintro _ x ⟨hx, -, -⟩
    apply Ensures.bind_get
    split
    · exact (hx.put hv).seq fun _ _ hu => .pure hu.untouched
    · exact .pure hx

def Vol.Makes (v : Vol) (cwd : Nat) (path : List UInt8) : Prop :=
  ∃ dp c, v.resolveParent (startOf cwd path) (components path) = some dp ∧
    (components path).getLast? = some c ∧ v.find dp c = none

theorem createPath_created (hv : Steady v) (hidle : ∀ j, (v.cur j).type = .free → (v.itable j).ref = 0)
    (hcwd : 0 < (v.itable cwd).ref) (hp : (0 : UInt8) ∉ path) (name : CName) (type : FileType) :
    Returns (createPath cwd path name type) v fun r u =>
      match r with
      | none => Untouched v u
      | some ip => (¬v.Makes cwd path ∧ Held ip v u) ∨ (v.Makes cwd path ∧ Made v type ip u) := by
  unfold createPath
  refine (nameiparent_leads hv hcwd hp name).seq ?_
  rintro ⟨_ | dp, name⟩ w ⟨hw, hdir⟩
  · exact .pure (Still.untouched hw)
  · obtain ⟨hpar, ht, hlast⟩ := hdir dp rfl
    refine (create_created hv hidle hw ht name type).post ?_
    rintro (_ | ip) u hu
    · exact hu
    · obtain ⟨hfound, hheld⟩ | ⟨hnone, hmade⟩ := hu
      · refine .inl ⟨?_, hheld⟩
        rintro ⟨dp', c, hpar', hlast', hnone⟩
        rw [hpar, Option.some_inj] at hpar'
        rw [hlast, Option.some_inj] at hlast'
        rw [← hpar', ← hlast'] at hnone
        exact hfound hnone
      · exact .inr ⟨⟨dp, nameOf name, hpar, hlast, hnone⟩, hmade⟩

end Xv6.Blocks
