import Xv6.MkfsImage
import Xv6.Lib.Bits

namespace Xv6.Mkfs

open Xv6.Lib Xv6.Lib.Words Xv6.Blocks Function
open Xv6.Inodes (bsize dirsiz direntSize rootino FileType)

variable {s t : Disk} {i j k b n : Nat} {cover : Nat → Cover} {cont : Nat → List UInt8} {v : Vol}
  {files : List Source} {E : String → Disk → Prop}

theorem decode_zero : decode (fun _ => 0) = Dinode.zero := by
  simp only [decode, dinType, dinNlink, dinSize, dinAddr, getLE_zero, ite_self]
  rfl

/-- The image before the first inode is allocated. -/
def blank : Disk where
  img := update (fun _ _ => 0) 1 superBlock
  len := fssize
  freeinode := 1
  freeblock := nmeta

theorem zeroes_ensures (n : Nat) :
    Ensures (zeroes n) start
      (fun _ t => t.img = (fun _ _ => 0) ∧ t.len = n ∧ t.freeinode = 1 ∧ t.freeblock = nmeta) E := by
  unfold zeroes
  refine Ensures.forM_range _
    (fun k (t : Disk) => t.img = (fun _ _ => 0) ∧ t.len = k ∧ t.freeinode = 1 ∧ t.freeblock = nmeta) n ?_
    ⟨rfl, rfl, rfl, rfl⟩
  rintro k t - ⟨himg, hlen, hino, hblk⟩
  refine .modify ⟨?_, ?_, hino, hblk⟩
  · simp only [Disk.write, himg]
    exact update_eq_self k _
  · simp only [Disk.write, hlen]
    omega

theorem blank_dinode (i : Nat) : blank.vol.dinode i = Dinode.zero := by
  have hzero : blank.dinode i = fun _ => 0 := by
    funext k
    simp only [Disk.dinode, blank, update_of_ne (iblock_ne_super i).symm]
  simp only [Disk.vol, hzero, decode_zero, ite_self]

theorem blank_ptr : blank.vol.ptr = fun _ => none := by
  funext x
  rw [Vol.ptr, vol_cur, blank_dinode]
  exact Dinode.ptr_none rfl _ _

theorem image_blank : Image blank fun _ => [] := by
  refine ⟨?_, rfl, by decide, by decide, by simp, fun i hi0 hi => ?_, fun i _ => ⟨blank_dinode i, rfl⟩, rfl⟩
  · rw [blank_ptr]
    refine ⟨⟨nofun, fun b => ?_, nofun⟩, fun b hb => ?_, fun i bn => ?_, fun i => ?_, nofun, ?_⟩
    · simp [blank]
    · have hne : b ≠ 1 := by
        rintro rfl
        exact absurd hb (by decide)
      simp only [blank, update_of_ne hne]
    · simp [covers, Cover.whole]
    · simp [covers, Cover.whole]
    · have hcost : (Cover.whole 0).cost = 0 := by decide
      simp [covers, hcost, blank]
  · have hi : i < 1 := hi
    omega

def finish (s : Disk) : Disk :=
  (s.putInode rootino (setSize (s.dinode rootino) ((dinSize (s.dinode rootino) / bsize + 1) * bsize))).write
    bmapstart (bitmap s.freeblock)

theorem main_ensures (hn : files.length + 2 ≤ ninodes) :
    Ensures (main files) start
      (fun _ t => ∃ s, Image s (contentsOf files) ∧ s.freeinode = files.length + 2 ∧
        (∀ f ∈ files, f.Named) ∧ t = finish s)
      (fun _ _ => ¬ Accepts files) := by
  unfold main
  refine (zeroes_ensures fssize).seq ?_
  rintro _ t ⟨himg, hlen, hino, hblk⟩
  have hblank : t.write 1 superBlock = blank := by
    simp only [Disk.write, himg, hlen, hino, hblk]
    rfl
  apply Ensures.bind_modify
  rw [hblank]
  refine (ialloc_ensures image_blank (by decide) (by decide) (by decide) rfl).seq ?_
  rintro _ t ⟨ht, rfl, htf⟩
  rw [if_neg (by decide)]
  have hfirst : Fits (contentsOf ([] ++ files)) → Fits (contentsOf []) := Fits.of_append
  rw [contentsOf_nil] at hfirst
  apply Ensures.bind
  refine (appendDirent_ensures ht (by rw [htf]; decide) _ _).imp ?_ fun _ _ hbig ha =>
    hbig (hfirst ha.fits).of_grow
  rintro _ u ⟨hu, huf⟩
  apply Ensures.bind
  refine (appendDirent_ensures hu (by rw [huf, htf]; decide) _ _).imp ?_ fun _ _ hbig ha =>
    hbig (hfirst ha.fits)
  rintro _ w ⟨hw, hwf⟩
  refine (Ensures.forM_list addFile (fun pre x => Image x (contentsOf pre) ∧ x.freeinode = pre.length + 2 ∧
    ∀ f ∈ pre, f.Named) files ?_ ?_).seq ?_
  · rintro pre f post x rfl ⟨hx, hxf, hnames⟩
    have hlt : pre.length + 2 < ninodes := by
      simp only [List.length_append, List.length_cons] at hn
      omega
    have hsplit : pre ++ f :: post = pre ++ [f] ++ post := by simp
    refine (addFile_ensures hx hxf hlt).imp ?_ fun _ _ hbad ha => hbad ⟨?_, ?_⟩
    · rintro _ y ⟨hy, hyf, hf⟩
      refine ⟨hy, hyf, fun g hg => ?_⟩
      rcases List.mem_append.mp hg with hg | hg
      · exact hnames g hg
      · exact List.mem_singleton.mp hg ▸ hf
    · exact fun g hg => ha.names g (hsplit ▸ List.mem_append_left _ hg)
    · exact Fits.of_append (hsplit ▸ ha.fits)
  · rw [contentsOf_nil]
    exact ⟨hw, hwf.trans (huf.trans htf), by simp⟩
  · rintro _ x ⟨hx, hxf, hnames⟩
    unfold fixRoot
    apply Ensures.bind
    refine (rinode_ensures hx.len (by decide)).seq ?_
    rintro _ _ ⟨rfl, rfl⟩
    refine (winode_ensures hx.len (by decide)).post ?_
    rintro _ _ rfl
    apply Ensures.bind_get
    have hfree : x.freeblock < bpb := lt_of_le_of_lt hx.free (by decide)
    unfold balloc
    rw [if_pos (by exact hfree)]
    exact .modify ⟨x, hx, hxf, hnames, rfl⟩

theorem bitmap_bit (used : Nat) (b : Nat) :
    bitmap used (b / 8) &&& 1 <<< UInt8.ofNat (b % 8) ≠ 0 ↔ b < used := by
  have hbit : Bits.bitAt (bitmap used) b = decide (b < used) := by
    induction used with
    | zero => simp [bitmap, Bits.bitAt]
    | succ used ih =>
      have hnext : bitmap (used + 1) = Bits.setBit (bitmap used) used := by
        rw [bitmap, List.range_succ, List.foldl_append]
        rfl
      rw [hnext, Bits.bitAt_setBit, ih, ← Bool.decide_or, decide_eq_decide]
      omega
  exact decide_eq_decide.mp hbit

theorem iblock_lt_bmapstart (hi : i < ninodes) : iblock i < bmapstart := by
  have hi : i < 200 := hi
  show i / 16 + 33 < 46
  omega

theorem write_bmap_dinode (s : Disk) (buf : Block) :
    (s.write bmapstart buf).vol.dinode = s.vol.dinode := by
  funext i
  simp only [Disk.vol]
  split_ifs with hi
  · have hsame : (s.write bmapstart buf).dinode i = s.dinode i := by
      funext k
      simp only [Disk.dinode, write_img_of_ne s buf (iblock_lt_bmapstart hi).ne]
    rw [hsame]
  · rfl

theorem Layout.write_bmap (h : Layout s s.vol.ptr cover cont) (buf : Block) :
    Layout (s.write bmapstart buf) (s.write bmapstart buf).vol.ptr cover cont := by
  have hdata : ∀ b, ¬ b < nmeta → (s.write bmapstart buf).img b = s.img b := fun b hb =>
    write_img_of_ne s buf fun he => hb (he ▸ by decide)
  have hptr : (s.write bmapstart buf).vol.ptr = s.vol.ptr := by
    have hblk : { s.vol with blk := (s.write bmapstart buf).img }.ptr = s.vol.ptr :=
      Vol.ptr_blk fun j b hb => hdata b (h.owned.apart hb)
    rw [← hblk]
    funext x
    simp only [Vol.ptr, vol_cur, write_bmap_dinode]
    rw [Vol.cur, if_neg (by exact vol_inactive s x.1)]
    rfl
  rw [hptr]
  refine ⟨h.owned, fun b hb => ?_, h.blocks, h.indirect, fun j off b hb => ?_, h.count⟩
  · have hcount := h.count
    have hb : s.freeblock ≤ b := hb
    rw [hdata b (by omega)]
    exact h.zero b hb
  · rw [hdata b (h.owned.apart hb)]
    exact h.bytes j off b hb

section Finish

variable (h : Image s cont) (hi : rootino < s.freeinode)
include h hi

theorem Image.root_size : dinSize (s.dinode rootino) = (cont rootino).length := by
  obtain ⟨-, -, hsize⟩ := h.used rootino (by decide) hi
  rw [h.dinode hi] at hsize
  exact hsize

theorem Image.root_size_lt : (dinSize (s.dinode rootino) / bsize + 1) * bsize < 2 ^ 32 := by
  have hb : bsize = 1024 := rfl
  have hmax : maxfile * bsize = 274432 := rfl
  have hsize := h.size rootino
  rw [← h.root_size hi] at hsize
  rw [hmax] at hsize
  rw [hb]
  omega

theorem Image.finish_dinode :
    (finish s).vol.dinode = update s.vol.dinode rootino
      { s.vol.dinode rootino with size := ((cont rootino).length / bsize + 1) * bsize } := by
  rw [finish, write_bmap_dinode, putInode_vol_dinode _ _ (by decide), decode_setSize (h.root_size_lt hi),
    h.dinode hi, h.root_size hi]

theorem Image.finish_layout : Layout (finish s) (finish s).vol.ptr (covers cont) cont := by
  refine Layout.write_bmap (Layout.putInode ?_ (by decide)) _
  rw [view_setSize_ptr (h.root_size_lt hi), view_self (by decide)]
  exact h.layout

omit hi in
theorem Image.finish_super (k : Nat) : sbWord (finish s).img k = word superBlock k := by
  rw [sbWord, finish, write_img_of_ne _ _ (by decide), putInode_img _ _ (iblock_ne_super _), h.super]

omit hi in
theorem Image.mount : mount (finish s).img = some (finish s).vol := by
  obtain ⟨hmagic, hsize, hmeta, hinodes, hstart, hbmap⟩ : word superBlock 0 = fsmagic ∧
      word superBlock 1 = fssize ∧ fssize - word superBlock 2 = nmeta ∧ word superBlock 3 = ninodes ∧
      word superBlock 6 = inodestart ∧ word superBlock 7 = bmapstart := by decide +kernel
  have hbit : (fun b => decide (b < fssize) && bitAt (finish s).img b) = (finish s).vol.bit := by
    funext b
    by_cases hb : b < fssize
    · have hb8 : b % bpb = b ∧ b / bpb = 0 := ⟨Nat.mod_eq_of_lt (lt_trans hb (by decide)),
        Nat.div_eq_of_lt (lt_trans hb (by decide))⟩
      have hblock : (finish s).img bmapstart = bitmap s.freeblock := write_img_self _ _ _
      simp only [hb, decide_true, Bool.true_and, bitAt, h.finish_super, hbmap, hb8, Nat.zero_add, hblock]
      exact decide_eq_decide.mpr (bitmap_bit s.freeblock b)
    · have hfree : ¬ b < s.freeblock := fun hlt => hb (lt_of_lt_of_le hlt h.free)
      simp only [hb, decide_false, Bool.false_and]
      exact (decide_eq_false hfree).symm
  have hdin : dinodeAt (finish s).img = (finish s).dinode := by
    funext i k
    simp only [dinodeAt, h.finish_super, hstart]
    rfl
  simp only [Mkfs.mount, h.finish_super, hmagic, hsize, hmeta, hinodes, if_true, hbit, hdin]
  rfl

end Finish

/-- Block `b` holds bytes of the inode `i`, or is its indirect block. -/
def Holds (v : Vol) (i b : Nat) : Prop :=
  (∃ bn, bn * bsize < (v.dinode i).size ∧ v.ptr (i, place bn) = some b) ∨
    v.ptr (i, .addr ndirect) = some b

structure Consistent (v : Vol) : Prop where
  full : ∀ i bn, bn * bsize < (v.dinode i).size → v.ptr (i, place bn) ≠ none
  once : ∀ x y b, v.ptr x = some b → v.ptr y = some b → x = y
  range : ∀ x b, v.ptr x = some b → nmeta ≤ b ∧ b < fssize
  bitmap : ∀ b, b < fssize → (v.bit b = true ↔ b < nmeta ∨ ∃ i, Holds v i b)

@[simp] theorem length_entry (inum : Nat) (name : List UInt8) : (entry inum name).length = direntSize :=
  length_chunk _ _ _

theorem length_contentsOf_root (files : List Source) :
    (contentsOf files rootino).length = (files.length + 2) * direntSize := by
  show ((entries files).flatMap fun e => entry e.1 e.2).length = _
  simp [List.length_flatMap, length_entry, entries]
  ring

theorem Image.finish_size (h : Image s cont) (hi : rootino < s.freeinode) (i : Nat) :
    ((finish s).vol.dinode i).size =
      if i = rootino then ((cont rootino).length / bsize + 1) * bsize else (cont i).length := by
  rw [h.finish_dinode hi]
  split_ifs with hr
  · rw [hr, update_self]
  · rw [update_of_ne hr]
    by_cases hu : i = 0 ∨ s.freeinode ≤ i
    · obtain ⟨hz, hnil⟩ := h.unused i hu
      rw [hz, hnil]
      rfl
    · exact (h.used i (by omega) (by omega)).2.2

theorem Image.finish_ptr (h : Image s cont) (hi : rootino < s.freeinode) (i bn : Nat) :
    (finish s).vol.ptr (i, place bn) ≠ none ↔ bn * bsize < (cont i).length :=
  (h.finish_layout hi).blocks i bn

theorem Image.length_le_size (h : Image s cont) (hi : rootino < s.freeinode) (i : Nat) :
    (cont i).length ≤ ((finish s).vol.dinode i).size := by
  have hb : bsize = 1024 := rfl
  rw [h.finish_size hi]
  split_ifs with hr
  · rw [hr, hb]
    omega
  · exact le_rfl

theorem place_of_ptr {q : Place} (h : v.ptr (i, q) = some b) : q = .addr ndirect ∨ ∃ bn, q = place bn := by
  cases q with
  | addr k =>
    have hk : k ≤ ndirect := by
      by_contra hk
      simp [Vol.ptr, Dinode.ptr, hk] at h
    rcases hk.lt_or_eq with hlt | rfl
    · exact .inr ⟨k, (place_direct hlt).symm⟩
    · exact .inl rfl
  | entry k => exact .inr ⟨ndirect + k, (place_eq_entry.mpr rfl).symm⟩

theorem Accepts.of_sizes (hnames : ∀ f ∈ files, f.Named) (hn : files.length + 2 ≤ ninodes)
    (hsize : ∀ f ∈ files, f.contents.length ≤ maxfile * bsize)
    (hblocks : needs (covers (contentsOf files)) ≤ fssize) : Accepts files := by
  refine ⟨hnames, ⟨fun j => ?_, hblocks⟩⟩
  match j with
  | 0 => simp [contentsOf]
  | 1 =>
    have hroot : (files.length + 2) * direntSize ≤ maxfile * bsize :=
      (Nat.mul_le_mul_right _ hn).trans (by decide)
    rw [← length_contentsOf_root] at hroot
    exact hroot
  | k + 2 =>
    cases hk : files[k]? with
    | none => simp [contentsOf, hk]
    | some f =>
      simp only [contentsOf, hk, Option.map_some, Option.getD_some]
      exact hsize f (List.mem_of_getElem? hk)

theorem main_ok (hn : files.length + 2 ≤ ninodes) (ha : Accepts files) :
    ∃ t, main files start = .ok () t := by
  cases hm : main files start with
  | ok _ t => exact ⟨t, rfl⟩
  | error e t => exact absurd ha ((main_ensures hn).error hm)

/-- The root directory has no spare block: its size is rounded up past its last entry. -/
theorem Image.finish_full (h : Image s (contentsOf files)) (hi : rootino < s.freeinode) :
    (∀ i bn, bn * bsize < ((finish s).vol.dinode i).size → (finish s).vol.ptr (i, place bn) ≠ none) ↔
      (files.length + 2) % 64 ≠ 0 := by
  have hb : bsize = 1024 := rfl
  have hd : direntSize = 16 := rfl
  have hroot := length_contentsOf_root files
  rw [hd] at hroot
  simp only [h.finish_ptr hi, h.finish_size hi, hb]
  constructor
  · intro hfull hmod
    have hlast := hfull rootino ((contentsOf files rootino).length / 1024)
    rw [if_pos rfl, hroot] at hlast
    omega
  · intro hmod i bn hbn
    split_ifs at hbn with hr
    · rw [hr, hroot]
      rw [hroot] at hbn
      omega
    · exact hbn

theorem mkfs_consistent (files : List Source) (hn : files.length ≤ ninodes - 2)
    {t : Disk} (hok : main files start = .ok () t) :
    (∃ v, mount t.img = some v ∧ Consistent v) ↔ (files.length + 2) % 64 ≠ 0 := by
  have hle : files.length + 2 ≤ ninodes := by
    have : 2 ≤ ninodes := by decide
    omega
  obtain ⟨s, hs, hfree, -, rfl⟩ := (main_ensures hle).ok hok
  have hi : rootino < s.freeinode := by simp [hfree, rootino]
  have hlay := hs.finish_layout hi
  rw [← hs.finish_full hi]
  constructor
  · rintro ⟨v, hv, hc⟩
    rw [hs.mount, Option.some_inj] at hv
    rw [hv]
    exact hc.full
  intro hfull
  refine ⟨_, hs.mount, ⟨hfull, fun x y b => hlay.owned.once, fun x b hx => ?_, fun b hb => ?_⟩⟩
  · have hused : b < s.freeblock := hlay.owned.used_of_ptr hx
    exact ⟨not_lt.mp (hlay.owned.apart hx), lt_of_lt_of_le hused hs.free⟩
  · have hused := hlay.owned.used_iff b
    have hbit : (finish s).vol.bit b = true ↔ b < (finish s).freeblock := decide_eq_true_iff
    rw [hbit, hused]
    refine or_congr_right ⟨?_, ?_⟩
    · rintro ⟨⟨i, q⟩, hq⟩
      rcases place_of_ptr hq with rfl | ⟨bn, rfl⟩
      · exact ⟨i, .inr hq⟩
      · have hlt := (hs.finish_ptr hi i bn).mp (by simp [hq])
        exact ⟨i, .inl ⟨bn, lt_of_lt_of_le hlt (hs.length_le_size hi i), hq⟩⟩
    · rintro ⟨i, ⟨bn, -, hbn⟩ | hind⟩
      · exact ⟨_, hbn⟩
      · exact ⟨_, hind⟩

theorem mkfs_consistent_two_files :
    ∃ t, main [⟨[97], [[1, 2, 3]]⟩, ⟨[98], []⟩] start = .ok () t ∧ ∃ v, mount t.img = some v ∧ Consistent v := by
  have ha : Accepts [⟨[97], [[1, 2, 3]]⟩, ⟨[98], []⟩] :=
    Accepts.of_sizes (by decide) (by decide) (by decide) (by decide +kernel)
  obtain ⟨t, ht⟩ := main_ok (by decide) ha
  exact ⟨t, ht, (mkfs_consistent _ (by decide) ht).mpr (by decide)⟩

/-- As many empty files as fill the first block of the root directory, with two-letter names. -/
def fullBlock : List Source := (List.range 62).map fun k => ⟨[97, UInt8.ofNat (48 + k)], []⟩

/-- The size of the root directory is rounded up to a second block that it does not have. -/
theorem mkfs_root_block_missing : fullBlock.length ≤ ninodes - 2 ∧ ∃ t v, main fullBlock start = .ok () t ∧
    mount t.img = some v ∧ (v.dinode rootino).size = 2 * bsize ∧ v.ptr (rootino, place 1) = none := by
  have ha : Accepts fullBlock :=
    Accepts.of_sizes (by decide +kernel) (by decide) (by decide +kernel) (by decide +kernel)
  have hlen : (contentsOf fullBlock rootino).length = bsize := length_contentsOf_root _
  obtain ⟨t, ht⟩ := main_ok (by decide) ha
  obtain ⟨s, hs, hfree, -, rfl⟩ := (main_ensures (by decide)).ok ht
  have hi : rootino < s.freeinode := by simp [hfree, rootino]
  refine ⟨by decide, _, _, ht, hs.mount, ?_, ?_⟩
  · rw [hs.finish_size hi, if_pos rfl, hlen]
    rfl
  · have hptr := (hs.finish_ptr hi rootino 1).not
    rw [hlen, not_not] at hptr
    exact hptr.mpr (by simp)

end Xv6.Mkfs
