import Xv6.MkfsMount
import Xv6.BlockReads

namespace Xv6.Mkfs

open Xv6.Lib Xv6.Lib.Words Xv6.Blocks Function
open Xv6.Inodes (bsize dirsiz direntSize rootino FileType)

variable {s t : Disk} {i j k b n : Nat} {cont : Nat → List UInt8} {v w : Vol} {files : List Source}
  {name name' : List UInt8} {E : String → Vol → Prop}

/-- A C string that fits in an entry. -/
structure IsName (name : List UInt8) : Prop where
  nonzero : ∀ c ∈ name, c ≠ 0
  length : name.length ≤ dirsiz

theorem cstring_ne_zero (h : IsName name) (hj : j < name.length) : cstring name j ≠ 0 := by
  unfold cstring
  rw [List.getD_eq_getElem _ _ hj]
  exact h.nonzero _ (List.getElem_mem hj)

theorem cstring_of_le (hj : name.length ≤ j) : cstring name j = 0 := List.getD_eq_default _ _ hj

theorem strncpy_cstring (h : IsName name) : strncpy (cstring name) = cstring name := by
  funext k
  unfold strncpy
  split_ifs with hz
  · obtain ⟨m, hm, hz⟩ := List.any_eq_true.mp hz
    rw [cstring_of_le]
    by_contra hlt
    exact cstring_ne_zero h (by have := List.mem_range.mp hm; omega) (of_decide_eq_true hz)
  · rfl

theorem namecmp_iff (h : IsName name) (h' : IsName name') {de : CName}
    (hde : ∀ k, k < dirsiz → de k = cstring name' k) : namecmp (cstring name) de = true ↔ name = name' := by
  have hl := h.length
  have hl' := h'.length
  rw [namecmp, sameBytes_iff]
  simp only [Nat.zero_add]
  refine ⟨fun hsame => ?_, ?_⟩
  · have hat : ∀ j, j < dirsiz → j ≤ name.length → cstring name j = cstring name' j := fun j hj hle => by
      rw [hsame j hj fun m hm => cstring_ne_zero h (by omega), hde j hj]
    have hlen : name.length = name'.length := by
      rcases lt_trichotomy name.length name'.length with hlt | he | hlt
      · have hz := hat name.length (by omega) le_rfl
        rw [cstring_of_le le_rfl] at hz
        exact absurd hz.symm (cstring_ne_zero h' hlt)
      · exact he
      · have hz := hat name'.length (by omega) hlt.le
        rw [cstring_of_le le_rfl] at hz
        exact absurd hz (cstring_ne_zero h hlt)
    refine List.ext_getElem hlen fun j hj hj' => ?_
    have hz := hat j (by omega) hj.le
    unfold cstring at hz
    rwa [List.getD_eq_getElem _ _ hj, List.getD_eq_getElem _ _ hj'] at hz
  · rintro rfl j hj -
    exact (hde j hj).symm

def bytesOf (l : List UInt8) : Nat → UInt8 := fun off => l.getD off 0

theorem Layout.stores {ptr : Nat × Place → Option Nat} {cover : Nat → Cover} {lim : Nat}
    (h : Layout s ptr cover cont) (hptr : v.ptr = ptr) (hblk : v.blk = s.img)
    (hlim : ∀ off, off < lim → off / bsize * bsize < (cover i).reach) : v.Stores i lim (bytesOf (cont i)) := by
  intro off hoff
  obtain ⟨b, hb⟩ := Option.ne_none_iff_exists'.mp ((h.blocks i (off / bsize)).mpr (hlim off hoff))
  exact ⟨b, hptr ▸ hb, hblk ▸ h.bytes i off b hb⟩

theorem getD_flatMap_entry (es : List (Nat × List UInt8)) (m j : Nat) (hj : j < direntSize) :
    (es.flatMap fun e => entry e.1 e.2).getD (m * direntSize + j) 0 =
      (es[m]?.map fun e => direntBytes e.1 (strncpy (cstring e.2)) j).getD 0 := by
  induction es generalizing m with
  | nil => simp
  | cons e es ih =>
    rw [List.flatMap_cons]
    cases m with
    | zero =>
      rw [List.getD_append _ _ _ _ (by simpa using hj), Nat.zero_mul, Nat.zero_add, entry,
        getD_chunk _ _ _ hj]
      simp
    | succ m =>
      have hsub : (m + 1) * direntSize + j - direntSize = m * direntSize + j := by
        rw [Nat.succ_mul]
        omega
      rw [List.getD_append_right _ _ _ _ (by simp [Nat.succ_mul]; omega), length_entry, hsub, ih]
      simp

theorem matches_entry {es : List (Nat × List UInt8)} {m inum : Nat} (hm : es[m]? = some (inum, name'))
    (hinum : inum < 2 ^ 16) (h : IsName name) (h' : IsName name') :
    direntInum (direntAt (bytesOf (es.flatMap fun e => entry e.1 e.2)) m) = inum ∧
      (Matches (cstring name) (direntAt (bytesOf (es.flatMap fun e => entry e.1 e.2)) m) ↔
        inum ≠ 0 ∧ name = name') := by
  have hde : ∀ j, j < direntSize → direntAt (bytesOf (es.flatMap fun e => entry e.1 e.2)) m j =
      direntBytes inum (strncpy (cstring name')) j := fun j hj => by
    rw [direntAt, bytesOf, getD_flatMap_entry es m j hj, hm]
    rfl
  obtain ⟨hi, hiff⟩ := matches_congr (cstring name) _ hde
  rw [direntInum_direntBytes _ _ hinum] at hi
  refine ⟨hi, hiff.trans ?_⟩
  rw [Matches, direntInum_direntBytes _ _ hinum, direntName_direntBytes, strncpy_cstring h']
  exact and_congr_right fun _ => namecmp_iff h h' fun _ _ => rfl

theorem not_matches_past {es : List (Nat × List UInt8)} {m : Nat} (hm : es.length ≤ m) (name : CName) :
    ¬ Matches name (direntAt (bytesOf (es.flatMap fun e => entry e.1 e.2)) m) := by
  have hz : ∀ j, j < direntSize → direntAt (bytesOf (es.flatMap fun e => entry e.1 e.2)) m j = 0 :=
    fun j hj => by
      rw [direntAt, bytesOf, getD_flatMap_entry es m j hj, List.getElem?_eq_none hm]
      rfl
  rw [(matches_congr name (fun _ => 0) hz).2]
  exact fun h => h.1 (getLE_zero 0 2)

def lookupRoot (name : CName) : V (Option Nat) := do
  iget rootino
  ilock rootino
  match ← dirlookup rootino name with
  | none => return none
  | some (ip, _) => do
    ilock ip
    return some ip

def ReadsSlice (l : List UInt8) (off n : Nat) (got : Int × (Nat → UInt8)) : Prop :=
  got.1 = readCount l.length off n ∧ ∀ j, j < readCount l.length off n → l[off + j]? = some (got.2 j)

structure RootLocked (s : Disk) (v : Vol) : Prop where
  same : SameFiles (finish s).vol v
  active : v.Active rootino
  ip : v.ip rootino = (finish s).vol.dinode rootino
  others : ∀ j, j ≠ rootino → (v.itable j).ref = 0

theorem lookupRoot_ensures {Q : Option Nat → Vol → Prop} {name : CName}
    (ht : ((finish s).vol.dinode rootino).type = .dir)
    (h : ∀ v, RootLocked s v → Ensures (lookupLoop rootino name ((v.ip rootino).size / direntSize + 1) 0) v
      (fun r w => match r with
        | none => Q none w
        | some (ip, _) => Ensures (ilock ip) w (fun _ u => Q (some ip) u) E) E) :
    Ensures (lookupRoot name) (finish s).vol Q E := by
  have hcur := vol_cur (finish s) rootino
  unfold lookupRoot
  refine (iget_opens ?_).seq ?_
  · have hone : (finish s).vol.entries ≤ 1 := Vol.entries_le_one (i := rootino) fun _ _ => rfl
    exact lt_of_le_of_lt hone (by decide)
  rintro _ v ⟨hv, href, hother⟩
  refine (ilock_opens href ?_).seq ?_
  · rw [hv.cur, hcur, ht]
    nofun
  rintro _ w ⟨hw, hact, hip, hrefs⟩
  have hroot : RootLocked s w :=
    ⟨hv.trans hw, hact, by rw [hip, hv.cur, hcur], fun j hj => by rw [hrefs, hother j hj]; rfl⟩
  apply Ensures.bind
  unfold dirlookup
  apply Ensures.bind_get
  rw [if_neg (by rw [hroot.ip, ht]; simp)]
  refine (h w hroot).post ?_
  rintro (_ | ⟨ip, off⟩) u hu
  · exact .pure hu
  · exact hu.seq fun _ _ hq => .pure hq

theorem length_entries (files : List Source) : (entries files).length = files.length + 2 := by
  simp [entries]

theorem entries_inum {e : Nat × List UInt8} (he : e ∈ entries files) : 0 < e.1 ∧ e.1 < files.length + 2 := by
  simp only [entries, List.mem_cons, List.mem_mapIdx] at he
  rcases he with rfl | rfl | ⟨k, hk, rfl⟩
  · simp [rootino]
  · simp [rootino]
  · exact ⟨Nat.succ_pos _, by simpa using hk⟩

section Root

variable (h : Image s (contentsOf files)) (hfree : s.freeinode = files.length + 2)
include h hfree

omit h in
theorem root_lt : rootino < s.freeinode := by simp [hfree, rootino]

theorem root_type : ((finish s).vol.dinode rootino).type = .dir := by
  have hi := root_lt hfree
  rw [h.finish_dinode hi, update_self]
  exact (h.used rootino (by decide) hi).1

theorem finish_type_ne_free (hi0 : 0 < i) (hi : i < files.length + 2) :
    ((finish s).vol.dinode i).type ≠ .free := by
  have hroot := root_lt hfree
  have htype := (h.used i hi0 (hfree ▸ hi)).1
  have hkind := kind_ne_free i
  rw [h.finish_dinode hroot]
  obtain rfl | hr := eq_or_ne i rootino
  · rw [update_self, htype]
    exact hkind
  · rw [update_of_ne hr, htype]
    exact hkind

theorem root_size : ((finish s).vol.dinode rootino).size =
    ((files.length + 2) * direntSize / bsize + 1) * bsize := by
  rw [h.finish_size (root_lt hfree), if_pos rfl, length_contentsOf_root]

theorem root_stores (hv : RootLocked s v) (lim : Nat)
    (hlim : ∀ off, off < lim → off / bsize * bsize < (files.length + 2) * direntSize) :
    v.Stores rootino lim (bytesOf ((entries files).flatMap fun e => entry e.1 e.2)) := by
  refine (h.finish_layout (root_lt hfree)).stores hv.same.ptr hv.same.blk fun off hoff => ?_
  rw [← length_contentsOf_root] at hlim
  exact hlim off hoff

theorem lookupRoot_found {m inum : Nat} (hm : (entries files)[m]? = some (inum, name))
    (hnames : ∀ e ∈ entries files, IsName e.2) (hnodup : ((entries files).map Prod.snd).Nodup) :
    Ensures (lookupRoot (cstring name)) (finish s).vol
      (fun r u => r = some inum ∧ SameFiles (finish s).vol u ∧ u.Active inum ∧
        u.ip inum = (finish s).vol.dinode inum) E := by
  have hd : direntSize = 16 := rfl
  have hb : bsize = 1024 := rfl
  have hn : files.length + 2 ≤ 200 := hfree ▸ h.inodes
  obtain ⟨hinum0, hinum⟩ := entries_inum (List.mem_of_getElem? hm)
  have hlt : m < files.length + 2 := by
    rw [← length_entries]
    exact (List.getElem?_eq_some_iff.mp hm).1
  have hname : IsName name := hnames _ (List.mem_of_getElem? hm)
  have hmatch := matches_entry hm (by omega) hname hname
  refine lookupRoot_ensures (root_type h hfree) fun v hv => ?_
  have hst := root_stores h hfree hv ((files.length + 2) * direntSize) fun off hoff =>
    lt_of_le_of_lt (Nat.div_mul_le_self _ _) hoff
  have hsize : (v.ip rootino).size = ((files.length + 2) * 16 / 1024 + 1) * 1024 := by
    rw [hv.ip, root_size h hfree, hd, hb]
  have hrounds : (v.ip rootino).size / direntSize + 1 =
      (v.ip rootino).size / direntSize - m + 1 + (m - 0) := by
    rw [hsize, hd]
    omega
  rw [hrounds]
  refine lookupLoop_skip hv.active (by omega) hst (Nat.zero_le m) (Nat.mul_le_mul_right _ hlt.le)
    (by rw [hsize, hd]; omega) (fun e _ he hme => ?_) ?_
  · obtain ⟨⟨inum', name'⟩, he'⟩ : ∃ x, (entries files)[e]? = some x :=
      ⟨_, List.getElem?_eq_getElem (by rw [length_entries]; omega)⟩
    have hmem := List.mem_of_getElem? he'
    have hlt' := (entries_inum hmem).2
    have hsame := ((matches_entry he' (by omega) hname (hnames _ hmem)).2.mp hme).2
    have hne := List.nodup_iff_getElem?_ne_getElem?.mp hnodup e m he (by simpa [length_entries] using hlt)
    rw [List.getElem?_map, List.getElem?_map, he', hm] at hne
    exact hne (by simp [hsame])
  · refine lookupLoop_round hv.active (by omega) hst (Nat.mul_le_mul_right _ hlt)
      (by rw [hsize, hd]; omega) (fun _ => ?_) fun hno => ?_
    · rw [hmatch.1]
      refine (iget_opens ?_).post ?_
      · exact lt_of_le_of_lt (Vol.entries_le_one hv.others) (by decide)
      · rintro _ w ⟨hw, href, -⟩
        have hcur : w.cur inum = (finish s).vol.dinode inum := by
          rw [hw.cur, hv.same.cur, vol_cur]
        refine (ilock_opens href ?_).post ?_
        · rw [hcur]
          exact finish_type_ne_free h hfree hinum0 hinum
        · rintro _ u ⟨hu, hact, hip, -⟩
          exact ⟨rfl, hv.same.trans (hw.trans hu), hact, hip.trans hcur⟩
    · exact absurd (hmatch.2.mpr ⟨hinum0.ne', rfl⟩) hno

theorem RootLocked.sound (hv : RootLocked s v) : Sound (some rootino) v := by
  have hroot := root_lt hfree
  have hlay := h.finish_layout hroot
  have hactive : ∀ i, some i ≠ some rootino → ¬ v.Active i := fun i hi ha =>
    absurd ha.1 (by rw [hv.others i fun he => hi (he ▸ rfl)]; exact lt_irrefl 0)
  refine ⟨?_, fun i hi ha => absurd ha (hactive i hi), fun i hi ha => absurd ha (hactive i hi),
    fun i hi => ?_, ?_, ?_⟩
  · unfold Vol.BlocksOwned
    rw [hv.same.ptr, hv.same.bit, hv.same.nmeta]
    exact ⟨hlay.owned.once, fun b => decide_eq_true_iff.trans (hlay.owned.used_iff b), hlay.owned.apart⟩
  · intro _
    have hsize := h.finish_size hroot i
    rw [if_neg fun he : i = rootino => hi (congrArg some he)] at hsize
    rw [hv.same.cur, vol_cur, hsize, hv.same.ptr]
    exact ⟨h.size i, fun bn hbn => (h.finish_ptr hroot i bn).mpr hbn⟩
  · rw [hv.same.size]
    show fssize ≤ 2 ^ 32
    decide
  · rw [hv.same.nmeta]
    show 0 < nmeta
    decide

theorem root_hole (hv : RootLocked s v) (hmod : (files.length + 2) % 64 = 0) :
    (v.ip rootino).addrs ((files.length + 2) / 64) = 0 := by
  have hn : files.length + 2 ≤ 200 := hfree ▸ h.inodes
  have hk : (files.length + 2) / 64 < ndirect := by
    show _ < 12
    omega
  have hptr := (h.finish_ptr (root_lt hfree) rootino ((files.length + 2) / 64)).not
  rw [length_contentsOf_root, not_not, ← hv.same.ptr, place_direct hk] at hptr
  have hnone := hptr.mpr (by
    show ¬ _ * 1024 < _ * 16
    omega)
  by_contra hne
  rw [Vol.ptr_active hv.active, Dinode.ptr_addr (by rw [hv.ip, root_type h hfree]; nofun) hk.le hne] at hnone
  cases hnone

theorem lookupLoop_hole (hv : RootLocked s v) (hmod : (files.length + 2) % 64 = 0) (name : CName) :
    Ensures (lookupLoop rootino name (63 + 1 + 1) ((files.length + 2) * direntSize)) v (fun r _ => r = none)
      (fun msg _ => msg = "dirlookup read" ∧ ∀ b, b < v.size → v.bit b = true) := by
  have hd : direntSize = 16 := rfl
  have hb : bsize = 1024 := rfl
  have hn : files.length + 2 ≤ 200 := hfree ▸ h.inodes
  have hk : (files.length + 2) / 64 < ndirect := by
    show _ < 12
    omega
  have hsize : (v.ip rootino).size = ((files.length + 2) * 16 / 1024 + 1) * 1024 := by
    rw [hv.ip, root_size h hfree, hd, hb]
  have hsound := hv.sound h hfree
  have ht : (v.ip rootino).type ≠ .free := by
    rw [hv.ip, root_type h hfree]
    nofun
  have h0 := root_hole h hfree hv hmod
  unfold lookupLoop
  apply Ensures.bind_get
  rw [if_pos (by rw [hsize, hd]; omega)]
  refine (readDirent_hole hsound hv.active ht hk h0 (by rw [hd]; omega) (by rw [hsize, hd]; omega)
    (by rw [hd, hb]; omega) (by rw [hd, hb]; omega)).seq ?_
  rintro de w ⟨b, hbit, rfl, hde⟩
  have hinum : direntInum de = 0 := (matches_congr name (fun _ => 0) hde).1.trans (getLE_zero 0 2)
  rw [if_neg fun hm => hm.1 hinum]
  have hst : (v.given rootino ((files.length + 2) / 64) b).Stores rootino (((files.length + 2) / 64 + 1) * bsize)
      (bytesOf ((entries files).flatMap fun e => entry e.1 e.2)) := by
    refine stores_given hsound hv.active ht hk h0 hbit (root_stores h hfree hv _ fun off hoff => ?_)
      fun off hoff _ => ?_
    · rw [hb] at hoff
      rw [hd, hb]
      omega
    · refine List.getD_eq_default _ _ ?_
      have hlen : ((entries files).flatMap fun e => entry e.1 e.2).length = (files.length + 2) * direntSize :=
        length_contentsOf_root files
      rw [hb] at hoff
      rw [hlen, hd]
      omega
  have hactive : (v.given rootino ((files.length + 2) / 64) b).Active rootino :=
    (Vol.setIp_active _ _ _).mpr hv.active
  have hsize' : ((v.given rootino ((files.length + 2) / 64) b).ip rootino).size =
      ((files.length + 2) * 16 / 1024 + 1) * 1024 := by
    rw [← hsize, Vol.given, Vol.setIp_ip_self]
  have hoff : (files.length + 2) * direntSize + direntSize = (files.length + 3) * direntSize := by ring
  have hrest : Ensures (lookupLoop rootino name (1 + (files.length + 66 - (files.length + 3)))
      ((files.length + 3) * direntSize)) (v.given rootino ((files.length + 2) / 64) b) (fun r _ => r = none)
      (fun msg _ => msg = "dirlookup read" ∧ ∀ b, b < v.size → v.bit b = true) := by
    refine lookupLoop_skip hactive (by omega) hst (by omega) (by rw [hd, hb]; omega) (by rw [hd]; omega)
      (fun e he _ => not_matches_past (by rw [length_entries]; omega) name) (lookupLoop_end ?_ rfl)
    rw [hd]
    omega
  have hrounds : 1 + (files.length + 66 - (files.length + 3)) = 64 := by omega
  rwa [hrounds, ← hoff] at hrest

theorem lookupRoot_missing (hnames : ∀ e ∈ entries files, IsName e.2) (hname : IsName name)
    (hno : ∀ e ∈ entries files, name ≠ e.2) :
    Ensures (lookupRoot (cstring name)) (finish s).vol (fun r _ => r = none)
      (fun msg _ => msg = "dirlookup read" ∧ (files.length + 2) % 64 = 0 ∧
        ∀ b, b < (finish s).vol.size → (finish s).vol.bit b = true) := by
  have hd : direntSize = 16 := rfl
  have hb : bsize = 1024 := rfl
  have hn : files.length + 2 ≤ 200 := hfree ▸ h.inodes
  have hmiss : ∀ e, ¬ Matches (cstring name)
      (direntAt (bytesOf ((entries files).flatMap fun e => entry e.1 e.2)) e) := by
    intro e hme
    by_cases he : e < (entries files).length
    · obtain ⟨⟨inum, name'⟩, he'⟩ : ∃ x, (entries files)[e]? = some x := ⟨_, List.getElem?_eq_getElem he⟩
      have hmem := List.mem_of_getElem? he'
      have hlt := (entries_inum hmem).2
      exact hno _ hmem ((matches_entry he' (by omega) hname (hnames _ hmem)).2.mp hme).2
    · exact not_matches_past (not_lt.mp he) _ hme
  refine lookupRoot_ensures (root_type h hfree) fun v hv => ?_
  have hsize : (v.ip rootino).size = ((files.length + 2) * 16 / 1024 + 1) * 1024 := by
    rw [hv.ip, root_size h hfree, hd, hb]
  by_cases hmod : (files.length + 2) % 64 = 0
  · have hst := root_stores h hfree hv ((files.length + 2) * direntSize) fun off hoff =>
      lt_of_le_of_lt (Nat.div_mul_le_self _ _) hoff
    have hrounds : (v.ip rootino).size / direntSize + 1 = 63 + 1 + 1 + (files.length + 2 - 0) := by
      rw [hsize, hd]
      omega
    rw [hrounds]
    refine lookupLoop_skip hv.active (by omega) hst (Nat.zero_le _) le_rfl (by rw [hsize, hd]; omega)
      (fun e _ _ => hmiss e) ?_
    refine (lookupLoop_hole h hfree hv hmod _).imp ?_ ?_
    · rintro r w rfl
      rfl
    · rintro msg w ⟨rfl, hfull⟩
      rw [hv.same.size, hv.same.bit] at hfull
      exact ⟨rfl, hmod, hfull⟩
  · have hst := root_stores h hfree hv (v.ip rootino).size fun off hoff => by
      rw [hsize] at hoff
      rw [hd, hb]
      omega
    have hrounds : (v.ip rootino).size / direntSize + 1 = 1 + ((v.ip rootino).size / direntSize - 0) :=
      Nat.add_comm _ _
    have hmul : (v.ip rootino).size / direntSize * direntSize = (v.ip rootino).size := by
      rw [hsize, hd]
      omega
    rw [hrounds]
    exact lookupLoop_skip hv.active (by omega) hst (Nat.zero_le _) hmul.le hmul.le (fun e _ _ => hmiss e)
      (lookupLoop_end hmul.ge rfl)

theorem readi_returns {k : Nat} {f : Source} (hk : files[k]? = some f) (hv : SameFiles (finish s).vol v)
    (ha : v.Active (k + 2)) (hip : v.ip (k + 2) = (finish s).vol.dinode (k + 2)) :
    (v.ip (k + 2)).size = f.contents.length ∧ ∀ (dst : Dst) (off n : UInt32),
      (∀ tot m, dst.fails tot m = false) → Ensures (readi (k + 2) dst off n) v
        (fun got _ => ReadsSlice f.contents off.toNat n.toNat got) E := by
  have hcont : contentsOf files (k + 2) = f.contents := by simp [contentsOf, hk]
  have hsize : (v.ip (k + 2)).size = f.contents.length := by
    rw [hip, h.finish_size (root_lt hfree), if_neg (by simp [rootino]), hcont]
  refine ⟨hsize, fun dst off n hdst => ?_⟩
  have hst : v.Stores (k + 2) f.contents.length (bytesOf (contentsOf files (k + 2))) :=
    (h.finish_layout (root_lt hfree)).stores hv.ptr hv.blk fun off hoff =>
      lt_of_le_of_lt (Nat.div_mul_le_self _ _) (by rw [covers, hcont]; exact hoff)
  rw [hcont, ← hsize] at hst
  refine (readi_stores hdst ha off n hst).post ?_
  rintro ⟨r, buf⟩ w ⟨-, rfl, hbuf⟩
  rw [hsize] at hbuf
  refine ⟨by rw [hsize], fun j hj => ?_⟩
  have hlt : off.toNat + j < f.contents.length := by
    unfold readCount at hj
    split_ifs at hj <;> omega
  rw [hbuf j hj, bytesOf, List.getD_eq_getElem _ _ hlt, List.getElem?_eq_getElem hlt]

end Root

/-- The kernel finds in the image of mkfs the files it was made from, and no others. -/
theorem mkfs_kernel_agree (files : List Source) (hn : files.length ≤ ninodes - 2)
    (hdistinct : (files.map Source.shortname).Nodup)
    (hnames : ∀ f ∈ files, f.shortname ≠ [] ∧ f.shortname ≠ Inodes.dot ∧ f.shortname ≠ Inodes.dotdot ∧
      ∀ c ∈ f.shortname, c ≠ 0)
    {t : Disk} (hok : main files start = .ok () t) : ∃ v, mount t.img = some v ∧
      (∀ k f, files[k]? = some f → Ensures (lookupRoot (cstring f.shortname)) v
        (fun r w => r = some (k + 2) ∧ (w.ip (k + 2)).size = f.contents.length ∧
          ∀ (dst : Dst) (off n : UInt32), (∀ tot m, dst.fails tot m = false) →
            Ensures (readi (k + 2) dst off n) w
              (fun got _ => ReadsSlice f.contents off.toNat n.toNat got) (fun _ _ => False))
        (fun _ _ => False)) ∧
      ∀ name, IsName name → name ≠ Inodes.dot → name ≠ Inodes.dotdot → name ∉ files.map Source.shortname →
        Ensures (lookupRoot (cstring name)) v (fun r _ => r = none)
          (fun msg _ => msg = "dirlookup read" ∧ (files.length + 2) % 64 = 0 ∧
            ∀ b, b < v.size → v.bit b = true) := by
  have hle : files.length + 2 ≤ ninodes := by
    have : 2 ≤ ninodes := by decide
    omega
  obtain ⟨s, hs, hfree, hshort, rfl⟩ := (main_ensures hle).ok hok
  have hall : ∀ e ∈ entries files, IsName e.2 := by
    intro e he
    simp only [entries, List.mem_cons, List.mem_mapIdx] at he
    rcases he with rfl | rfl | ⟨k, hk, rfl⟩
    · exact ⟨by simp [Inodes.dot], by decide⟩
    · exact ⟨by simp [Inodes.dotdot], by decide⟩
    · have hmem := List.getElem_mem hk
      exact ⟨(hnames _ hmem).2.2.2, (hshort _ hmem).2⟩
  have hsnd : (entries files).map Prod.snd =
      Inodes.dot :: Inodes.dotdot :: files.map Source.shortname := by
    have hrest : (files.mapIdx fun k f => (k + 2, f.shortname)).map Prod.snd = files.map Source.shortname :=
      List.ext_getElem (by simp) fun k _ _ => by simp
    rw [entries, List.map_cons, List.map_cons, hrest]
  have hnodup : ((entries files).map Prod.snd).Nodup := by
    rw [hsnd]
    refine List.nodup_cons.mpr ⟨?_, List.nodup_cons.mpr ⟨?_, hdistinct⟩⟩
    · intro hmem
      rcases List.mem_cons.mp hmem with he | hmem
      · exact absurd he (by decide)
      · obtain ⟨f, hf, he⟩ := List.mem_map.mp hmem
        exact (hnames f hf).2.1 he
    · intro hmem
      obtain ⟨f, hf, he⟩ := List.mem_map.mp hmem
      exact (hnames f hf).2.2.1 he
  refine ⟨_, hs.mount, fun k f hk => ?_, fun name hname hdot hdotdot hno => ?_⟩
  · have hm : (entries files)[k + 2]? = some (k + 2, f.shortname) := by simp [entries, hk]
    refine (lookupRoot_found hs hfree hm hall hnodup).post ?_
    rintro r w ⟨rfl, hw, hact, hip⟩
    exact ⟨rfl, readi_returns hs hfree hk hw hact hip⟩
  · refine lookupRoot_missing hs hfree hall hname fun e he heq => ?_
    have hmem : name ∈ (entries files).map Prod.snd := List.mem_map.mpr ⟨e, he, heq.symm⟩
    rw [hsnd] at hmem
    rcases List.mem_cons.mp hmem with he | hmem
    · exact hdot he
    · rcases List.mem_cons.mp hmem with he | hmem
      · exact hdotdot he
      · exact hno hmem

theorem mkfs_kernel_agree_two_files : ∃ t, main [⟨[97], [[1, 2, 3]]⟩, ⟨[98], []⟩] start = .ok () t ∧
    ∃ v, mount t.img = some v ∧ Ensures (lookupRoot (cstring [97])) v
      (fun r w => r = some 2 ∧ (w.ip 2).size = 3) (fun _ _ => False) := by
  have ha : Accepts [⟨[97], [[1, 2, 3]]⟩, ⟨[98], []⟩] :=
    Accepts.of_sizes (by decide) (by decide) (by decide) (by decide +kernel)
  obtain ⟨t, ht⟩ := main_ok (by decide) ha
  obtain ⟨v, hv, hfound, -⟩ := mkfs_kernel_agree _ (by decide) (by decide)
    (by simp [Source.shortname, Source.base, userDir, Inodes.dot, Inodes.dotdot]) ht
  exact ⟨t, ht, v, hv, (hfound 0 _ rfl).post fun _ _ h => ⟨h.1, h.2.1⟩⟩

end Xv6.Mkfs
