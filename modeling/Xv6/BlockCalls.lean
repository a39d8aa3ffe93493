import Xv6.BlockDirs
import Xv6.BlockFiles

namespace Xv6.Blocks

open Xv6.Lib Function
open Xv6.Inodes (FileType bsize short direntSize)

variable {v w u : Vol} {i j k dp ip : Nat} {name : CName}

structure Gained (i : Nat) (v w : Vol) : Prop where
  ref : ∀ j, (w.itable j).ref = (v.itable j).ref + if j = i then 1 else 0
  active : ∀ j, v.Active j → w.Active j

structure Lost (i : Nat) (v w : Vol) : Prop where
  ref : ∀ j, (w.itable j).ref = (v.itable j).ref - if j = i then 1 else 0
  active : ∀ j, v.Active j → 0 < (w.itable j).ref → w.Active j

theorem Gained.lost (h : Gained i v w) (h' : Lost i w u) : Kept v u := by
  have href : ∀ j, (u.itable j).ref = (v.itable j).ref := by
    intro j
    rw [h'.ref, h.ref]
    omega
  exact ⟨href, fun j hj => h'.active j (h.active j hj) (href j ▸ hj.1)⟩

theorem Gained.keep (h : Gained i v w) (h' : Kept w u) : Gained i v u :=
  ⟨fun j => (h'.ref j).trans (h.ref j), fun j hj => h'.active j (h.active j hj)⟩

theorem Vol.setEntry_itable (v : Vol) (i j : Nat) (e : Entry) :
    (v.setEntry i e).itable j = if j = i then e else v.itable j :=
  update_apply _ _ _ _

theorem iget_ensures (h : Sound none v) (i : Nat) :
    Ensures (iget i) v (fun _ w => Sound none w ∧ Gained i v w) Other := by
  unfold iget
  apply Ensures.bind_get
  dsimp only
  split
  · next hr =>
    refine ⟨h.setEntry fun _ hv => ⟨h.synced i (Option.some_ne_none _) ⟨hr, hv⟩, ?_⟩, fun j => ?_, fun j hj => ?_⟩
    · rw [← h.synced i (Option.some_ne_none _) ⟨hr, hv⟩]
      exact h.live i (Option.some_ne_none _) ⟨hr, hv⟩
    · rw [Vol.setEntry_itable]
      split
      · next hj => rw [hj]
      · rfl
    · unfold Vol.Active at hj ⊢
      rw [Vol.setEntry_itable]
      split
      · next he => exact ⟨Nat.succ_pos _, he ▸ hj.2⟩
      · exact hj
  · next hr =>
    split
    · exact .throw ⟨by decide, by decide⟩
    · refine ⟨h.setEntry fun _ hv => absurd hv Bool.false_ne_true, fun j => ?_, fun j hj => ?_⟩
      · rw [Vol.setEntry_itable]
        split
        · next hj =>
          subst hj
          simp only
          omega
        · rfl
      · have hne : j ≠ i := fun he => hr (he ▸ hj.1)
        unfold Vol.Active at hj ⊢
        rwa [Vol.setEntry_itable, if_neg hne]

theorem idup_ensures (h : Sound none v) (hr : 0 < (v.itable i).ref) :
    Ensures (idup i) v (fun _ w => Sound none w) Other := by
  refine h.setEntry fun _ hv => ?_
  have hip := h.synced i (Option.some_ne_none _) ⟨hr, hv⟩
  exact ⟨hip, hip ▸ h.live i (Option.some_ne_none _) ⟨hr, hv⟩⟩

theorem ilock_ensures (h : Sound none v) (i : Nat) :
    Ensures (ilock i) v (fun _ w => Sound none w ∧ Kept v w ∧ w.Active i) Other := by
  unfold ilock
  apply Ensures.bind_get
  dsimp only
  split
  · exact .throw ⟨by decide, by decide⟩
  · next hr =>
    split
    · next hv => exact ⟨h, Kept.refl v, by omega, hv⟩
    · next hv =>
      apply Ensures.bind_set
      split
      · exact .throw ⟨by decide, by decide⟩
      · next ht =>
        refine ⟨h.setEntry fun _ _ => ⟨rfl, ht⟩, ⟨fun j => ?_, fun j hj => ?_⟩, ?_⟩
        · rw [Vol.setEntry_itable]
          split
          · next hj => rw [hj]
          · rfl
        · unfold Vol.Active at hj ⊢
          rw [Vol.setEntry_itable]
          split
          · next he => exact ⟨he ▸ hj.1, rfl⟩
          · exact hj
        · unfold Vol.Active
          rw [Vol.setEntry_itable, if_pos rfl]
          exact ⟨Nat.not_lt.mp hr, rfl⟩

theorem Sound.freed (h : Sound none v) (hnone : ∀ p, v.ptr (i, p) = none) : Sound none (v.freed i) :=
  (h.relax i).settle (fun _ hv => absurd hv Bool.false_ne_true)
    (fun p => by rw [hnone p, Dinode.ptr_free rfl]) (fun hn => absurd rfl hn)

theorem Sound.gone (h : Sound none v) (ha : v.Active i) : Sound none (v.gone i) := by
  refine (h.emptied ha).freed fun p => ?_
  rw [Vol.emptied_ptr ha]
  exact if_pos rfl

theorem iput_ensures {E : String → Vol → Prop} (h : Sound none v) (i : Nat) :
    Ensures (iput i) v (fun _ w => Sound none w ∧ Lost i v w) E := by
  by_cases hlast : (v.itable i).ref = 1 ∧ (v.itable i).valid = true ∧ (v.itable i).ip.nlink = 0
  · have ha : v.Active i := ⟨by omega, hlast.2.1⟩
    refine (iput_gone h.owned (h.live i (Option.some_ne_none _) ha) hlast).post ?_
    rintro _ _ rfl
    refine ⟨h.gone ha, fun j => ?_, fun j hj hr => ?_⟩
    · by_cases hji : j = i
      · rw [hji, v.gone_itable_self, if_pos rfl]
      · rw [Vol.gone_itable hji, if_neg hji, Nat.sub_zero]
    · by_cases hji : j = i
      · rw [hji, v.gone_itable_self, hlast.1] at hr
        exact absurd hr (lt_irrefl 0)
      · unfold Vol.Active
        rwa [Vol.gone_itable hji]
  · unfold iput
    apply Ensures.bind_get
    dsimp only
    rw [if_neg hlast]
    apply Ensures.modify
    refine ⟨h.setEntry fun hr hv => ?_, fun j => ?_, fun j hj hr => ?_⟩
    · have ha : v.Active i := ⟨Nat.lt_of_lt_of_le hr (Nat.sub_le _ _), hv⟩
      have hip := h.synced i (Option.some_ne_none _) ha
      exact ⟨hip, hip ▸ h.live i (Option.some_ne_none _) ha⟩
    · rw [Vol.setEntry_itable]
      split
      · next hj => rw [hj]
      · rfl
    · unfold Vol.Active at hj ⊢
      refine ⟨hr, ?_⟩
      rw [Vol.setEntry_itable]
      split
      · next he => exact he ▸ hj.2
      · exact hj.2

def Vol.allocated (v : Vol) (i : Nat) (type : FileType) : Vol :=
  { v with dinode := update v.dinode i { Dinode.zero with type := type } }

theorem Sound.inactive (h : Sound none v) (hfree : (v.dinode i).type = .free) : ¬v.Active i := by
  intro ha
  refine h.live i (Option.some_ne_none _) ha ?_
  rw [h.synced i (Option.some_ne_none _) ha, hfree]

theorem Sound.allocated (h : Sound none v) (hfree : (v.dinode i).type = .free) (type : FileType) :
    Sound none (v.allocated i type) := by
  have hptr : ∀ p, v.ptr (i, p) = none := by
    intro p
    rw [Vol.ptr, h.cur_eq, Dinode.ptr_free hfree]
  have hs := (h.relax i).settle (n := { Dinode.zero with type := type }) (e := v.itable i)
    (fun hr hv => absurd ⟨hr, hv⟩ (h.inactive hfree)) ?_ ?_
  · rwa [update_eq_self] at hs
  · intro p
    rw [hptr p]
    cases p <;> simp [Dinode.ptr, Dinode.zero]
  · exact fun _ => ⟨Nat.zero_le _, fun bn hbn => absurd hbn (Nat.not_lt_zero _)⟩

theorem ialloc_cases {type : FileType} {Q : Option Nat → Vol → Prop} {E : String → Vol → Prop} (hnone : Q none v)
    (hsome : ∀ i, 0 < i → (v.dinode i).type = .free →
      Ensures (iget i) (v.allocated i type) (fun _ w => Q (some i) w) E) :
    Ensures (ialloc type) v Q E := by
  unfold ialloc
  apply Ensures.bind_get
  split
  · exact hnone
  · next i hi =>
    have hp := List.find?_some hi
    rw [decide_eq_true_eq] at hp
    apply Ensures.bind_set
    exact (hsome i hp.1 hp.2).seq fun _ _ hw => hw

theorem ialloc_ensures (h : Sound none v) (type : FileType) :
    Ensures (ialloc type) v (fun r w => Sound none w ∧
      match r with | none => Kept v w | some ip => Gained ip v w) Other := by
  refine ialloc_cases ⟨h, Kept.refl v⟩ fun i _ hfree => ?_
  refine (iget_ensures (h.allocated hfree type) i).post ?_
  rintro _ w ⟨hw, hg⟩
  exact ⟨hw, hg.ref, hg.active⟩

theorem changeLinks_ensures (h : Sound none v) (ha : v.Active i) (f : Int → Int) :
    Ensures (changeLinks i f) v (fun _ w => Sound none w ∧ Kept v w) Other := by
  unfold changeLinks
  apply Ensures.bind_modify
  apply Ensures.modify
  obtain ⟨hs, hptr⟩ := (h.relax i).setFields (n := { v.ip i with nlink := f (v.ip i).nlink }) rfl rfl
  have has : (v.setIp i { v.ip i with nlink := f (v.ip i).nlink }).Active i := (v.setIp_active i i _).mpr ha
  have hf := h.full i (Option.some_ne_none _)
  unfold Vol.Full at hf
  rw [Vol.cur_active ha] at hf
  refine ⟨hs.iupdate has (by simpa using h.live i (Option.some_ne_none _) ha) ?_, (v.kept_setIp i _).of_itable rfl⟩
  unfold Vol.Full
  rwa [Vol.cur_active has, Vol.setIp_ip_self, hptr]

section Directories

section

variable (h : Sound none v)
include h

theorem readDirent_ensures (ha : v.Active dp) (off : Nat) {msg : String}
    (hmsg : Other msg v) : Ensures (readDirent dp off msg) v (fun _ w => w = v) Other := by
  unfold readDirent
  refine (readi_ensures ha (h.live dp (Option.some_ne_none _) ha) (h.full dp (Option.some_ne_none _)) _ _ _).seq ?_
  rintro ⟨r, de⟩ w rfl
  dsimp only
  split
  · exact .throw hmsg
  · exact rfl

theorem lookupLoop_ensures (ha : v.Active dp) (name : CName) (rounds off : Nat) :
    Ensures (lookupLoop dp name rounds off) v (fun r w => Sound none w ∧
      match r with | none => Kept v w | some (ip, _) => Gained ip v w) Other := by
  induction rounds generalizing off with
  | zero => exact ⟨h, Kept.refl v⟩
  | succ rounds ih =>
    unfold lookupLoop
    apply Ensures.bind_get
    split
    · refine (readDirent_ensures h ha off ⟨by decide, by decide⟩).seq ?_
      rintro de w rfl
      split
      · refine (iget_ensures h _).seq ?_
        rintro _ u hu
        exact hu
      · exact ih (off + direntSize)
    · exact ⟨h, Kept.refl v⟩

theorem dirlookup_ensures (ha : v.Active dp) (name : CName) :
    Ensures (dirlookup dp name) v (fun r w => Sound none w ∧
      match r with | none => Kept v w | some (ip, _) => Gained ip v w) Other := by
  unfold dirlookup
  apply Ensures.bind_get
  split
  · exact .throw ⟨by decide, by decide⟩
  · exact lookupLoop_ensures h ha name _ _

theorem emptyLoop_ensures (ha : v.Active dp) (rounds off : Nat) :
    Ensures (emptyLoop dp rounds off) v (fun _ w => w = v) Other := by
  induction rounds generalizing off with
  | zero => exact rfl
  | succ rounds ih =>
    unfold emptyLoop
    apply Ensures.bind_get
    split
    · refine (readDirent_ensures h ha off ⟨by decide, by decide⟩).seq ?_
      rintro de w rfl
      split
      · exact rfl
      · exact ih (off + direntSize)
    · exact rfl

theorem isdiremptyLoop_ensures (ha : v.Active dp) (rounds off : Nat) :
    Ensures (isdiremptyLoop dp rounds off) v (fun _ w => w = v) Other := by
  induction rounds generalizing off with
  | zero => exact rfl
  | succ rounds ih =>
    unfold isdiremptyLoop
    apply Ensures.bind_get
    split
    · refine (readDirent_ensures h ha off ⟨by decide, by decide⟩).seq ?_
      rintro de w rfl
      split
      · exact rfl
      · exact ih (off + direntSize)
    · exact rfl

theorem dirlink_ensures (ha : v.Active dp) (name : CName) (inum : Nat) :
    Ensures (dirlink dp name inum) v (fun _ w => Sound none w ∧ Kept v w) Other := by
  unfold dirlink
  refine (dirlookup_ensures h ha name).seq ?_
  rintro r w ⟨hw, hr⟩
  cases r with
  | some x =>
    refine (iput_ensures hw x.1).seq ?_
    rintro _ u ⟨hu, hl⟩
    exact ⟨hu, hr.lost hl⟩
  | none =>
    have haw : w.Active dp := hr.active dp ha
    apply Ensures.bind_get
    refine (emptyLoop_ensures hw haw _ _).seq ?_
    rintro off u rfl
    refine (writei_ensures hw haw _ _ _).seq ?_
    rintro x u ⟨hu, hk⟩
    exact ⟨hu, hr.trans hk⟩

theorem isdirempty_ensures (ha : v.Active dp) :
    Ensures (isdirempty dp) v (fun _ w => w = v) Other := by
  unfold isdirempty
  apply Ensures.bind_get
  exact isdiremptyLoop_ensures h ha _ _

theorem unlinkBlocked_ensures (ha : v.Active ip) :
    Ensures (unlinkBlocked ip) v (fun _ w => w = v) Other := by
  unfold unlinkBlocked
  apply Ensures.bind_get
  split
  · exact (isdirempty_ensures h ha).seq fun _ _ he => he
  · exact rfl

theorem unlinkCounts_ensures (hdp : v.Active dp) (hip : v.Active ip)
    (href : 0 < (v.itable ip).ref - if ip = dp then 1 else 0) :
    Ensures (unlinkCounts dp ip) v (fun _ w => Sound none w) Other := by
  have hlast : ∀ w, Sound none w → Kept v w →
      Ensures (do iput dp; changeLinks ip fun n => short (n - 1); iput ip; return true) w
        (fun (_ : Bool) u => Sound none u) Other := by
    intro w hw hk
    refine (iput_ensures hw dp).seq ?_
    rintro _ x ⟨hx, hl⟩
    have hax : x.Active ip := by
      refine hl.active ip (hk.active ip hip) ?_
      rwa [hl.ref, hk.ref]
    refine (changeLinks_ensures hx hax _).seq ?_
    rintro _ y ⟨hy, -⟩
    exact (iput_ensures hy ip).seq fun _ _ hz => hz.1
  unfold unlinkCounts
  apply Ensures.bind_get
  dsimp only
  split
  · refine (changeLinks_ensures h hdp _).seq ?_
    rintro _ w ⟨hw, hk⟩
    exact hlast w hw hk
  · exact hlast v h (Kept.refl v)

end

theorem unlinkEntry_ensures (ha : v.Active dp) (hg : Gained ip v w) (hw : Sound none w) (off : Nat) :
    Ensures (unlinkEntry dp ip off) w (fun _ u => Sound none u) Other := by
  have href : 0 < (w.itable ip).ref - if ip = dp then 1 else 0 := by
    have hip := hg.ref ip
    rw [if_pos rfl] at hip
    have hpos := ha.1
    split
    · next he =>
      subst he
      omega
    · omega
  unfold unlinkEntry
  refine (ilock_ensures hw ip).seq ?_
  rintro _ x ⟨hx, hkx, hip⟩
  apply Ensures.bind_get
  split
  · exact .throw ⟨by decide, by decide⟩
  · refine (unlinkBlocked_ensures hx hip).seq ?_
    rintro blocked y rfl
    split
    · refine (iput_ensures hx ip).seq ?_
      rintro _ y ⟨hy, -⟩
      exact (iput_ensures hy dp).seq fun _ _ hz => hz.1
    · have hdp := hkx.active dp (hg.active dp ha)
      refine (writei_ensures hx hdp _ _ _).seq ?_
      rintro r z ⟨hz, hkz⟩
      split
      · exact .throw ⟨by decide, by decide⟩
      · refine unlinkCounts_ensures hz (hkz.active dp hdp) (hkz.active ip hip) ?_
        rwa [hkz.ref, hkx.ref]

theorem unlink_ensures (h : Sound none v) (dp : Nat) (name : CName) :
    Ensures (unlink dp name) v (fun _ w => Sound none w) Other := by
  unfold unlink
  refine (ilock_ensures h dp).seq ?_
  rintro _ w ⟨hw, -, ha⟩
  split
  · exact (iput_ensures hw dp).seq fun _ _ hu => hu.1
  · refine (dirlookup_ensures hw ha name).seq ?_
    rintro r u ⟨hu, hr⟩
    cases r with
    | none =>
      exact (iput_ensures hu dp).seq fun _ _ hx => hx.1
    | some x => exact unlinkEntry_ensures ha hr hu x.2

theorem createEntries_ensures (h : Sound none v) (hdp : v.Active dp) (hip : v.Active ip) (name : CName)
    (type : FileType) :
    Ensures (createEntries dp name type ip) v (fun _ w => Sound none w ∧ Kept v w) Other := by
  unfold createEntries
  split
  · refine (dirlink_ensures h hip dot ip).seq ?_
    rintro r w ⟨hw, hk⟩
    split
    · exact ⟨hw, hk⟩
    · refine (dirlink_ensures hw (hk.active ip hip) dotdot dp).seq ?_
      rintro r u ⟨hu, hk'⟩
      have hku := hk.trans hk'
      split
      · exact ⟨hu, hku⟩
      · refine (dirlink_ensures hu (hku.active dp hdp) name ip).post ?_
        rintro r x ⟨hx, hk''⟩
        exact ⟨hx, hku.trans hk''⟩
  · exact dirlink_ensures h hdp name ip

theorem createNew_ensures (h : Sound none v) (hdp : v.Active dp) (name : CName) (type : FileType) :
    Ensures (createNew dp name type) v (fun _ w => Sound none w) Other := by
  unfold createNew
  refine (ialloc_ensures h type).seq ?_
  rintro r w ⟨hw, hr⟩
  cases r with
  | none =>
    exact (iput_ensures hw dp).seq fun _ _ hu => hu.1
  | some ip =>
    refine (ilock_ensures hw ip).seq ?_
    rintro _ x ⟨hx, hkx, hip⟩
    refine (changeLinks_ensures hx hip _).seq ?_
    rintro _ y ⟨hy, hky⟩
    have hdy := hky.active dp (hkx.active dp (hr.active dp hdp))
    have hiy := hky.active ip hip
    refine (createEntries_ensures hy hdy hiy name type).seq ?_
    rintro ok z ⟨hz, hkz⟩
    have hput : ∀ u, Sound none u →
        Ensures (do iput dp; return some ip) u (fun (_ : Option Nat) t => Sound none t) Other := by
      intro u hu
      exact (iput_ensures hu dp).seq fun _ _ ht => ht.1
    split
    · dsimp only
      split
      · refine (changeLinks_ensures hz (hkz.active dp hdy) _).seq ?_
        rintro _ u ⟨hu, -⟩
        exact hput u hu
      · exact hput z hz
    · refine (changeLinks_ensures hz (hkz.active ip hiy) _).seq ?_
      rintro _ u ⟨hu, -⟩
      refine (iput_ensures hu ip).seq ?_
      rintro _ t ⟨ht, -⟩
      exact (iput_ensures ht dp).seq fun _ _ hx => hx.1

theorem create_ensures (h : Sound none v) (dp : Nat) (name : CName) (type : FileType) :
    Ensures (create dp name type) v (fun _ w => Sound none w) Other := by
  unfold create
  refine (ilock_ensures h dp).seq ?_
  rintro _ w ⟨hw, -, ha⟩
  refine (dirlookup_ensures hw ha name).seq ?_
  rintro r u ⟨hu, hr⟩
  cases r with
  | none => exact createNew_ensures hu (hr.active dp ha) name type
  | some x =>
    refine (iput_ensures hu dp).seq ?_
    rintro _ y ⟨hy, -⟩
    refine (ilock_ensures hy x.1).seq ?_
    rintro _ z ⟨hz, -, -⟩
    apply Ensures.bind_get
    dsimp only
    split
    · exact hz
    · exact (iput_ensures hz x.1).seq fun _ _ ht => ht.1

end Directories

end Xv6.Blocks
