import Xv6.MkfsAppend

namespace Xv6.Mkfs

open Xv6.Lib Xv6.Lib.Words Xv6.Blocks Function
open Xv6.Inodes (bsize dirsiz direntSize rootino FileType)
open Xv6.LogSystem (memmove)

variable {s t : Disk} {i j k b n : Nat} {din d : DinodeBytes} {cover : Nat → Cover}
  {cont : Nat → List UInt8} {p : Nat → UInt8} {E : String → Disk → Prop}

theorem decode_congr (h : ∀ k, k < dinodeSize → d k = din k) : decode d = decode din := by
  have hsz : dinodeSize = 64 := rfl
  have hd : ndirect = 12 := rfl
  have hget : ∀ off w, off + w ≤ dinodeSize → getLE d off w = getLE din off w := fun off w hw =>
    getLE_congr fun k _ hk => h k (by omega)
  have haddrs : (decode d).addrs = (decode din).addrs := by
    funext k
    simp only [decode]
    split_ifs with hk
    · exact hget _ _ (by omega)
    · rfl
  simp only [decode, dinType, dinNlink, dinSize, hget 0 2 (by decide), hget 6 2 (by decide),
    hget 8 4 (by decide), Dinode.mk.injEq, true_and]
  exact haddrs

def Disk.putInode (s : Disk) (i : Nat) (din : DinodeBytes) : Disk :=
  s.write (iblock i) (memmove (s.img (iblock i)) (i % ipb * dinodeSize) din dinodeSize)

theorem putInode_img (s : Disk) (din : DinodeBytes) (hb : b ≠ iblock i) :
    (s.putInode i din).img b = s.img b := write_img_of_ne _ _ hb

theorem iblock_ne_super (i : Nat) : 1 ≠ iblock i := by
  have hlt : 1 < inodestart := by decide
  exact (lt_of_lt_of_le hlt (Nat.le_add_left _ _)).ne

theorem putInode_len (s : Disk) (din : DinodeBytes) (hs : s.len = fssize) (hi : i < ninodes) :
    (s.putInode i din).len = fssize := by
  have hlt := iblock_lt hi
  have hmeta : nmeta ≤ fssize := by decide
  simp only [Disk.putInode, Disk.write, hs]
  omega

theorem putInode_dinode (s : Disk) (i j : Nat) (din : DinodeBytes) :
    decode ((s.putInode i din).dinode j) = if j = i then decode din else decode (s.dinode j) := by
  have hp : ipb = 16 := rfl
  have hz : dinodeSize = 64 := rfl
  split_ifs with hj
  · subst hj
    refine decode_congr fun k hk => ?_
    simp only [Disk.dinode, Disk.putInode, write_img_self, memmove]
    rw [if_pos (by omega), Nat.add_sub_cancel_left]
  · refine decode_congr fun k hk => ?_
    by_cases hb : iblock j = iblock i
    · have hne : j % ipb ≠ i % ipb := fun he => hj (by simp only [iblock, hp] at hb he; omega)
      simp only [Disk.dinode, Disk.putInode, hb, write_img_self, memmove]
      rw [if_neg]
      rw [hz] at hk ⊢
      omega
    · simp only [Disk.dinode, putInode_img _ _ hb]

theorem putInode_vol_dinode (s : Disk) (din : DinodeBytes) (hi : i < ninodes) :
    (s.putInode i din).vol.dinode = update s.vol.dinode i (decode din) := by
  funext j
  obtain rfl | hj := eq_or_ne j i
  · simp only [Disk.vol, if_pos hi, update_self, putInode_dinode, if_true]
  · simp only [Disk.vol, update_of_ne hj, putInode_dinode, if_neg hj]

theorem putInode_ptr (hi : i < ninodes)
    (hind : ∀ j b, (s.view i din).ptr (j, .addr ndirect) = some b → ¬ b < nmeta) :
    (s.putInode i din).vol.ptr = (s.view i din).ptr := by
  have hcur : ∀ j, (s.putInode i din).vol.cur j = (s.view i din).cur j := by
    intro j
    rw [vol_cur, putInode_vol_dinode s din hi]
    obtain rfl | hj := eq_or_ne j i
    · rw [update_self, Vol.cur_active (view_active s j din), view_ip]
    · rw [update_of_ne hj, view_cur_of_ne s din hj]
  have hblk : { s.view i din with blk := (s.putInode i din).img }.ptr = (s.view i din).ptr :=
    Vol.ptr_blk fun j b hb => putInode_img s din fun he => hind j b hb (he ▸ iblock_lt hi)
  rw [← hblk]
  funext x
  simp only [Vol.ptr, hcur]
  rfl

theorem Layout.putInode (h : Layout s (s.view i din).ptr cover cont) (hi : i < ninodes) :
    Layout (s.putInode i din) (s.putInode i din).vol.ptr cover cont := by
  have hdata : ∀ b, ¬ b < nmeta → (s.putInode i din).img b = s.img b := fun b hb =>
    putInode_img s din fun he => hb (he ▸ iblock_lt hi)
  rw [putInode_ptr hi fun j b hb => h.owned.apart hb]
  refine ⟨h.owned, fun b hb => ?_, h.blocks, h.indirect, fun j off b hb => ?_, h.count⟩
  · have hcount := h.count
    have hb : s.freeblock ≤ b := hb
    rw [hdata b (by omega)]
    exact h.zero b hb
  · rw [hdata b (h.owned.apart hb)]
    exact h.bytes j off b hb

theorem rinode_ensures (hs : s.len = fssize) (hi : i < ninodes) :
    Ensures (rinode i) s (fun din t => din = s.dinode i ∧ s = t) E := by
  have hmeta : nmeta ≤ fssize := by decide
  unfold rinode
  refine (rsect_ensures fun hge => ?_).seq ?_
  · have := iblock_lt hi
    omega
  · rintro _ _ ⟨rfl, rfl, -⟩
    exact .pure ⟨rfl, rfl⟩

theorem winode_ensures (hs : s.len = fssize) (hi : i < ninodes) :
    Ensures (winode i din) s (fun _ t => t = s.putInode i din) E := by
  have hmeta : nmeta ≤ fssize := by decide
  unfold winode
  refine (rsect_ensures fun hge => ?_).seq ?_
  · have := iblock_lt hi
    omega
  · rintro _ _ ⟨rfl, rfl, -⟩
    exact .modify rfl

def kind (i : Nat) : FileType := if i = rootino then .dir else .file

/-- What mkfs has written between two steps of `main`, with the bytes of every file. -/
structure Image (s : Disk) (cont : Nat → List UInt8) : Prop where
  layout : Layout s s.vol.ptr (covers cont) cont
  len : s.len = fssize
  free : s.freeblock ≤ fssize
  inodes : s.freeinode ≤ ninodes
  size : ∀ i, (cont i).length ≤ maxfile * bsize
  used : ∀ i, 0 < i → i < s.freeinode →
    (s.vol.dinode i).type = kind i ∧ (s.vol.dinode i).nlink = 1 ∧ (s.vol.dinode i).size = (cont i).length
  unused : ∀ i, i = 0 ∨ s.freeinode ≤ i → s.vol.dinode i = Dinode.zero ∧ cont i = []
  super : s.img 1 = superBlock

theorem Image.dinode (h : Image s cont) (hi : i < s.freeinode) :
    s.vol.dinode i = decode (s.dinode i) := if_pos (lt_of_lt_of_le hi h.inodes)

theorem kind_ne_free (i : Nat) : kind i ≠ .free := by
  unfold kind
  split_ifs <;> simp

theorem view_setSize_ptr {size : Nat} (hs : size < 2 ^ 32) :
    (s.view i (setSize din size)).ptr = (s.view i din).ptr := by
  funext ⟨j, q⟩
  obtain rfl | hj := eq_or_ne j i
  · rw [Vol.ptr_active (view_active s j _), Vol.ptr_active (view_active s j _), view_ip, view_ip,
      decode_setSize hs]
    rfl
  · simp only [Vol.ptr, view_cur_of_ne s _ hj]
    rfl

theorem iappend_ensures (h : Image s cont) (hi0 : 0 < i) (hi : i < s.freeinode) (p : Nat → UInt8) (n : Nat) :
    Ensures (iappend i p n) s
      (fun _ t => Image t (grow cont i (chunk p 0 n)) ∧ t.freeinode = s.freeinode)
      (fun _ _ => ¬ Fits (grow cont i (chunk p 0 n))) := by
  have hin : i < ninodes := lt_of_lt_of_le hi h.inodes
  obtain ⟨htype, hlink, hsize⟩ := h.used i hi0 hi
  rw [h.dinode hi] at htype hlink hsize
  unfold iappend
  refine (rinode_ensures h.len hin).seq ?_
  rintro _ _ ⟨rfl, rfl⟩
  have happ : Appending s i (s.dinode i) cont := by
    refine ⟨?_, h.len, h.free, h.size i⟩
    rw [view_self hin]
    exact h.layout
  have hoff : dinSize (s.dinode i) = (cont i).length := hsize
  rw [hoff]
  refine (appendLoop_ensures n n 0 happ hin (htype ▸ kind_ne_free i) le_rfl).seq ?_
  rintro ⟨d, off⟩ t ⟨hd, hsame, hino, hend⟩
  obtain rfl : off = (cont i).length + n := hend
  have hlen : (cont i).length + n = (grow cont i (chunk p 0 n) i).length := by simp
  have hlt : (cont i).length + n < 2 ^ 32 := by
    rw [hlen]
    exact lt_of_le_of_lt hd.size (by decide)
  refine (winode_ensures hd.len hin).post ?_
  rintro _ _ rfl
  have hdin := putInode_vol_dinode t (setSize d ((cont i).length + n)) hin
  refine ⟨⟨?_, putInode_len _ _ hd.len hin, hd.free, ?_, fun j => ?_, fun j hj0 hj => ?_, fun j hj => ?_, ?_⟩,
    hsame.freeinode⟩
  · refine Layout.putInode ?_ hin
    rw [view_setSize_ptr hlt]
    exact hd.layout
  · exact hsame.freeinode.trans_le h.inodes
  · by_cases hj : j = i
    · rw [hj]
      exact hd.size
    · rw [grow_of_ne _ hj]
      exact h.size j
  · rw [hdin]
    obtain rfl | hji := eq_or_ne j i
    · rw [update_self, decode_setSize hlt, ← hlen]
      exact ⟨hino.type.trans htype, hino.nlink.trans hlink, rfl⟩
    · rw [update_of_ne hji, hsame.vol_dinode, grow_of_ne _ hji]
      exact h.used j hj0 (hsame.freeinode ▸ hj)
  · have hj : j = 0 ∨ s.freeinode ≤ j := hsame.freeinode ▸ hj
    have hji : j ≠ i := by omega
    rw [hdin, update_of_ne hji, hsame.vol_dinode, grow_of_ne _ hji]
    exact h.unused j hj
  · rw [putInode_img _ _ (iblock_ne_super i), hsame.img 1 (by decide)]
    exact h.super

theorem getLE_zero (off w : Nat) : getLE (fun _ => 0) off w = 0 := by
  induction w generalizing off with
  | zero => rfl
  | succ w ih => simp [getLE, ih]

theorem decode_newInode {type : Nat} (ht : type < 2 ^ 16) :
    decode (newInode type) = ⟨fileType type, 1, 0, fun _ => 0⟩ := by
  have htype : dinType (newInode type) = type := by
    unfold dinType newInode setSize
    rw [getLE_putLE_apart _ _ _ _ _ _ (by omega), getLE_putLE_apart _ _ _ _ _ _ (by omega)]
    exact getLE_putLE _ _ _ _ (by omega)
  have hlink : dinNlink (newInode type) = 1 := by
    unfold dinNlink newInode setSize
    rw [getLE_putLE_apart _ _ _ _ _ _ (by omega)]
    exact getLE_putLE _ _ _ _ (by omega)
  have hsize : dinSize (newInode type) = 0 := getLE_putLE _ _ _ _ (by omega)
  have haddr : ∀ k, dinAddr (newInode type) k = 0 := fun k => by
    unfold dinAddr newInode setSize
    rw [getLE_putLE_apart _ _ _ _ _ _ (by omega), getLE_putLE_apart _ _ _ _ _ _ (by omega),
      getLE_putLE_apart _ _ _ _ _ _ (by omega)]
    exact getLE_zero _ _
  simp only [decode, htype, hlink, hsize, haddr, ite_self, Dinode.mk.injEq, true_and]
  exact ⟨rfl, trivial⟩

theorem Dinode.ptr_none {n : Dinode} (h : n.addrs = fun _ => 0) (blk : Nat → Block) (q : Place) :
    n.ptr blk q = none := by
  cases q <;> simp [Dinode.ptr, h]

theorem view_newInode_ptr {type : Nat} (ht : type < 2 ^ 16) (hz : s.vol.dinode i = Dinode.zero) :
    (s.view i (newInode type)).ptr = s.vol.ptr := by
  funext ⟨j, q⟩
  obtain rfl | hj := eq_or_ne j i
  · have hold : s.vol.ptr (j, q) = none := by
      rw [Vol.ptr, vol_cur, hz]
      exact Dinode.ptr_none rfl _ q
    rw [Vol.ptr_active (view_active s j _), view_ip, decode_newInode ht, hold]
    exact Dinode.ptr_none rfl _ q
  · simp only [Vol.ptr, view_cur_of_ne s _ hj, vol_cur]
    rfl

theorem ialloc_ensures {type : Nat} (h : Image s cont) (hi0 : 0 < s.freeinode) (hi : s.freeinode < ninodes)
    (ht : type < 2 ^ 16) (hk : fileType type = kind s.freeinode) :
    Ensures (ialloc type) s
      (fun i t => Image t cont ∧ i = s.freeinode ∧ t.freeinode = s.freeinode + 1) E := by
  obtain ⟨hz, hnil⟩ := h.unused s.freeinode (.inr le_rfl)
  unfold ialloc
  apply Ensures.bind_get
  apply Ensures.bind_set
  refine (winode_ensures (s := { s with freeinode := s.freeinode + 1 }) h.len hi).seq ?_
  rintro _ _ rfl
  apply Ensures.pure
  have hdin := putInode_vol_dinode { s with freeinode := s.freeinode + 1 } (newInode type) hi
  refine ⟨⟨?_, putInode_len _ _ h.len hi, h.free, hi, h.size, fun j hj0 hj => ?_, fun j hj => ?_, ?_⟩, rfl, rfl⟩
  · refine Layout.putInode ?_ hi
    rw [view_newInode_ptr (s := { s with freeinode := s.freeinode + 1 }) ht hz]
    exact ⟨h.layout.owned, h.layout.zero, h.layout.blocks, h.layout.indirect, h.layout.bytes, h.layout.count⟩
  · rw [hdin]
    by_cases hji : j = s.freeinode
    · subst hji
      rw [update_self, decode_newInode ht, hnil]
      exact ⟨hk, rfl, rfl⟩
    · rw [update_of_ne hji]
      have hj : j < s.freeinode + 1 := hj
      exact h.used j hj0 (by omega)
  · have hj : j = 0 ∨ s.freeinode + 1 ≤ j := hj
    rw [hdin, update_of_ne (by omega)]
    exact h.unused j (by omega)
  · rw [putInode_img _ _ (iblock_ne_super _)]
    exact h.super

theorem chunk_getD (l : List UInt8) : chunk (fun k => l.getD k 0) 0 l.length = l := by
  refine List.ext_getElem (by simp) fun j hj hj' => ?_
  simp [chunk, hj']

theorem Fits.of_grow {l : List UInt8} (h : Fits (grow cont i l)) : Fits cont := by
  refine ⟨fun j => le_trans ?_ (h.size j), le_trans ?_ h.blocks⟩
  · obtain rfl | hj := eq_or_ne j i
    · simp
    · rw [grow_of_ne _ hj]
  · rw [covers_grow, ← update_eq_self i (covers cont), update_idem]
    exact needs_mono (whole_cost_mono (Nat.le_add_right _ _))

def entry (inum : Nat) (name : List UInt8) : List UInt8 :=
  chunk (direntBytes inum (strncpy (cstring name))) 0 direntSize

def entries (files : List Source) : List (Nat × List UInt8) :=
  (rootino, Inodes.dot) :: (rootino, Inodes.dotdot) :: files.mapIdx fun k f => (k + 2, f.shortname)

def contentsOf (files : List Source) : Nat → List UInt8
  | 0 => []
  | 1 => (entries files).flatMap fun e => entry e.1 e.2
  | k + 2 => (files[k]?.map Source.contents).getD []

theorem contentsOf_nil :
    contentsOf [] = grow (grow (fun _ => []) rootino (entry rootino Inodes.dot)) rootino
      (entry rootino Inodes.dotdot) := by
  rw [grow_grow]
  funext j
  match j with
  | 0 => rfl
  | 1 => simp [contentsOf, entries, grow, rootino]
  | k + 2 => simp [contentsOf, grow, rootino]

theorem contentsOf_concat (files : List Source) (f : Source) :
    contentsOf (files ++ [f]) = grow (grow (contentsOf files) rootino (entry (files.length + 2) f.shortname))
      (files.length + 2) f.contents := by
  funext j
  match j with
  | 0 => simp [contentsOf, grow, rootino]
  | 1 => simp [contentsOf, entries, grow, rootino, List.mapIdx_append]
  | k + 2 =>
    by_cases hk : k = files.length
    · subst hk
      simp [contentsOf, grow, rootino]
    · have hget : (files ++ [f])[k]? = files[k]? := by
        rcases Nat.lt_or_gt_of_ne hk with hlt | hgt
        · rw [List.getElem?_append_left hlt]
        · rw [List.getElem?_eq_none (by simp; omega), List.getElem?_eq_none (by omega)]
      rw [grow_of_ne _ (by omega), grow_of_ne _ (by simp [rootino])]
      simp only [contentsOf, hget]

theorem Fits.of_append {files rest : List Source} (h : Fits (contentsOf (files ++ rest))) :
    Fits (contentsOf files) := by
  induction rest using List.reverseRecOn with
  | nil => simpa using h
  | append_singleton rest f ih =>
    rw [← List.append_assoc, contentsOf_concat] at h
    exact ih h.of_grow.of_grow

def Source.Named (f : Source) : Prop := 47 ∉ f.base ∧ f.shortname.length ≤ dirsiz

instance (f : Source) : Decidable f.Named := inferInstanceAs (Decidable (_ ∧ _))

/-- What mkfs asks of its arguments: the assertions on the names, and room for the files. -/
structure Accepts (files : List Source) : Prop where
  names : ∀ f ∈ files, f.Named
  fits : Fits (contentsOf files)

theorem appendDirent_ensures (h : Image s cont) (hi : rootino < s.freeinode) (inum : Nat) (name : List UInt8) :
    Ensures (appendDirent inum name) s
      (fun _ t => Image t (grow cont rootino (entry inum name)) ∧ t.freeinode = s.freeinode)
      (fun _ _ => ¬ Fits (grow cont rootino (entry inum name))) :=
  iappend_ensures h (by decide) hi _ _

theorem appendChunks_ensures (h : Image s cont) (hi0 : 0 < i) (hi : i < s.freeinode)
    (chunks : List (List UInt8)) :
    Ensures (chunks.forM fun buf => iappend i (fun k => buf.getD k 0) buf.length) s
      (fun _ t => Image t (grow cont i chunks.flatten) ∧ t.freeinode = s.freeinode)
      (fun _ _ => ¬ Fits (grow cont i chunks.flatten)) := by
  refine Ensures.forM_list _
    (fun pre t => Image t (grow cont i pre.flatten) ∧ t.freeinode = s.freeinode) chunks ?_ ?_
  · rintro pre buf post t hl ⟨ht, htf⟩
    have hnext : grow (grow cont i pre.flatten) i (chunk (fun k => buf.getD k 0) 0 buf.length) =
        grow cont i (pre ++ [buf]).flatten := by
      rw [grow_grow, chunk_getD]
      simp
    have hrest : grow cont i chunks.flatten = grow (grow cont i (pre ++ [buf]).flatten) i post.flatten := by
      rw [grow_grow, hl]
      simp
    refine (iappend_ensures ht hi0 (htf ▸ hi) _ _).imp ?_ fun _ _ hbig hfits => hbig ?_
    · rintro _ u ⟨hu, huf⟩
      exact ⟨hnext ▸ hu, huf.trans htf⟩
    · rw [hnext]
      exact (hrest ▸ hfits).of_grow
  · exact ⟨by simpa using h, rfl⟩

theorem addFile_ensures {files : List Source} {f : Source} (h : Image s (contentsOf files))
    (hfree : s.freeinode = files.length + 2) (hlt : files.length + 2 < ninodes) :
    Ensures (addFile f) s
      (fun _ t => Image t (contentsOf (files ++ [f])) ∧ t.freeinode = (files ++ [f]).length + 2 ∧ f.Named)
      (fun _ _ => ¬ Accepts (files ++ [f])) := by
  unfold addFile
  split_ifs with hslash hlong
  · exact .throw fun ha => (ha.names f (by simp)).1 hslash
  · exact .throw fun ha => absurd (ha.names f (by simp)).2 (not_le.mpr hlong)
  · refine (ialloc_ensures h (by omega) (by omega) (by decide) ?_).seq ?_
    · simp [fileType, kind, hfree, rootino]
    · rintro _ t ⟨ht, rfl, htf⟩
      rw [hfree] at htf ⊢
      have hroot : rootino < t.freeinode := by simp [htf, rootino]
      apply Ensures.bind
      refine (appendDirent_ensures ht hroot _ _).imp ?_ fun _ _ hbig ha => ?_
      · rintro _ u ⟨hu, huf⟩
        rw [htf] at huf
        refine (appendChunks_ensures hu (by omega) (by omega) f.chunks).imp ?_ fun _ _ hbig ha => ?_
        · rintro _ v ⟨hv, hvf⟩
          rw [contentsOf_concat]
          exact ⟨hv, by simpa using hvf.trans huf, hslash, not_lt.mp hlong⟩
        · have hfits := ha.fits
          rw [contentsOf_concat] at hfits
          exact hbig hfits
      · have hfits := ha.fits
        rw [contentsOf_concat] at hfits
        exact hbig hfits.of_grow

end Xv6.Mkfs
