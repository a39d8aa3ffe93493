import Xv6.Mkfs
import Xv6.BlockFiles
import Mathlib.Data.List.GetD
import Mathlib.Algebra.BigOperators.Group.Finset.Basic
import Mathlib.Algebra.Order.BigOperators.Group.Finset

namespace Xv6.Mkfs

open Xv6.Lib Xv6.Lib.Words Xv6.Blocks Function
open Xv6.Inodes (bsize dirsiz direntSize rootino FileType)
open Xv6.LogSystem (memmove)

variable {s t : Disk} {i j k b fbn off : Nat} {din : DinodeBytes} {E : String → Disk → Prop}

theorem dinAddr_setAddr_self (hb : b < 2 ^ 32) : dinAddr (setAddr din k b) k = b :=
  getLE_putLE _ _ _ _ (by omega)

theorem dinAddr_setAddr_of_ne (hjk : j ≠ k) : dinAddr (setAddr din k b) j = dinAddr din j :=
  getLE_putLE_apart _ _ _ _ _ _ (by omega)

theorem decode_setAddr (hk : k ≤ ndirect) (hb : b < 2 ^ 32) :
    decode (setAddr din k b) = { decode din with addrs := update (decode din).addrs k b } := by
  have htype : dinType (setAddr din k b) = dinType din := getLE_putLE_apart _ _ _ _ _ _ (by omega)
  have hlink : dinNlink (setAddr din k b) = dinNlink din := getLE_putLE_apart _ _ _ _ _ _ (by omega)
  have hsize : dinSize (setAddr din k b) = dinSize din := getLE_putLE_apart _ _ _ _ _ _ (by omega)
  have haddrs : (decode (setAddr din k b)).addrs = update (decode din).addrs k b := by
    funext j
    obtain rfl | hj := eq_or_ne j k
    · simp only [decode, if_pos hk, update_self]
      exact dinAddr_setAddr_self hb
    · simp only [decode, update_of_ne hj, dinAddr_setAddr_of_ne hj]
  rw [← haddrs]
  simp only [decode, htype, hlink, hsize]

theorem decode_setSize {size : Nat} (hs : size < 2 ^ 32) :
    decode (setSize din size) = { decode din with size := size } := by
  have htype : dinType (setSize din size) = dinType din := getLE_putLE_apart _ _ _ _ _ _ (by omega)
  have hlink : dinNlink (setSize din size) = dinNlink din := getLE_putLE_apart _ _ _ _ _ _ (by omega)
  have hsize : dinSize (setSize din size) = size := getLE_putLE _ _ _ _ (by omega)
  have haddr : ∀ k, dinAddr (setSize din size) k = dinAddr din k := fun k =>
    getLE_putLE_apart _ _ _ _ _ _ (by omega)
  simp only [decode, htype, hlink, hsize, haddr]

theorem write_img_of_ne (s : Disk) (buf : Block) (hb : b ≠ k) : (s.write k buf).img b = s.img b :=
  update_of_ne hb _ _

@[simp] theorem write_img_self (s : Disk) (b : Nat) (buf : Block) : (s.write b buf).img b = buf :=
  update_self _ _ _

def Disk.dinode (s : Disk) (i : Nat) : DinodeBytes :=
  fun k => s.img (iblock i) (i % ipb * dinodeSize + k)

def Disk.vol (s : Disk) : Vol where
  size := fssize
  nmeta := nmeta
  ninodes := ninodes
  bit b := b < s.freeblock
  blk := s.img
  dinode i := if i < ninodes then decode (s.dinode i) else Dinode.zero
  itable _ := ⟨0, false, Dinode.zero⟩

/-- The volume while `iappend` works on the inode `i`, which it has in `din`. -/
def Disk.view (s : Disk) (i : Nat) (din : DinodeBytes) : Vol := s.vol.setEntry i ⟨1, true, decode din⟩

theorem view_active (s : Disk) (i : Nat) (din : DinodeBytes) : (s.view i din).Active i := by
  simp [Disk.view, Vol.setEntry, Vol.Active]

@[simp] theorem view_ip (s : Disk) (i : Nat) (din : DinodeBytes) : (s.view i din).ip i = decode din := by
  simp [Disk.view, Vol.setEntry, Vol.ip]

theorem vol_inactive (s : Disk) (i : Nat) : ¬ s.vol.Active i := fun h => absurd h.1 (lt_irrefl 0)

theorem vol_cur (s : Disk) (i : Nat) : s.vol.cur i = s.vol.dinode i := if_neg (vol_inactive s i)

theorem view_cur_of_ne (s : Disk) (din : DinodeBytes) (hj : j ≠ i) :
    (s.view i din).cur j = s.vol.dinode j := by
  have hent : (s.view i din).itable j = s.vol.itable j := update_of_ne hj _ _
  have hna : ¬ (s.view i din).Active j := by
    rw [Vol.Active, hent]
    exact vol_inactive s j
  exact if_neg hna

theorem view_self (hi : i < ninodes) : (s.view i (s.dinode i)).ptr = s.vol.ptr := by
  have hcur : ∀ j, (s.view i (s.dinode i)).cur j = s.vol.cur j := by
    intro j
    rw [vol_cur]
    obtain rfl | hj := eq_or_ne j i
    · rw [Vol.cur_active (view_active s j _), view_ip]
      exact (if_pos hi).symm
    · exact view_cur_of_ne s _ hj
  funext x
  simp only [Vol.ptr, hcur]
  rfl

/-- How much of a file has blocks: those for the first `reach` bytes, and the indirect one. -/
structure Cover where
  reach : Nat
  ind : Bool

def Cover.cost (c : Cover) : Nat := (c.reach + (bsize - 1)) / bsize + if c.ind then 1 else 0

def Cover.whole (size : Nat) : Cover := ⟨size, ndirect * bsize < size⟩

/-- Where the blocks and bytes of the files are. A file ends in zeros up to the end of its blocks. -/
structure Layout (s : Disk) (ptr : Nat × Place → Option Nat) (cover : Nat → Cover)
    (cont : Nat → List UInt8) : Prop where
  owned : Owned (· < nmeta) (· < s.freeblock) ptr
  zero : ∀ b, s.freeblock ≤ b → s.img b = fun _ => 0
  blocks : ∀ i bn, ptr (i, place bn) ≠ none ↔ bn * bsize < (cover i).reach
  indirect : ∀ i, ptr (i, .addr ndirect) ≠ none ↔ (cover i).ind = true
  bytes : ∀ i off b, ptr (i, place (off / bsize)) = some b → s.img b (off % bsize) = (cont i).getD off 0
  count : s.freeblock = nmeta + ∑ i ∈ Finset.range ninodes, (cover i).cost

variable {ptr ptr' : Nat × Place → Option Nat} {cover : Nat → Cover} {cont : Nat → List UInt8} {c : Cover}
  {p : Place}

theorem cost_update (hi : i < ninodes) :
    (∑ j ∈ Finset.range ninodes, (update cover i c j).cost) + (cover i).cost =
      (∑ j ∈ Finset.range ninodes, (cover j).cost) + c.cost := by
  have hmem : i ∈ Finset.range ninodes := Finset.mem_range.mpr hi
  have hnew := Finset.add_sum_erase _ (fun j => (update cover i c j).cost) hmem
  have hold := Finset.add_sum_erase _ (fun j => (cover j).cost) hmem
  have hsame : ∑ j ∈ (Finset.range ninodes).erase i, (update cover i c j).cost =
      ∑ j ∈ (Finset.range ninodes).erase i, (cover j).cost :=
    Finset.sum_congr rfl fun j hj => by rw [update_of_ne (Finset.ne_of_mem_erase hj)]
  simp only [update_self] at hnew
  omega

theorem Layout.fill (h : Layout s ptr cover cont) (hi : i < ninodes) (hp : ptr (i, p) = none)
    (hptr : ptr' = update ptr (i, p) (some s.freeblock)) (hfree : t.freeblock = s.freeblock + 1)
    (himg : ∀ j bn b, ptr (j, place bn) = some b → t.img b = s.img b)
    (hzero : ∀ b, s.freeblock ≤ b → t.img b = s.img b)
    (hblocks : ∀ bn, (place bn = p ∨ bn * bsize < (cover i).reach) ↔ bn * bsize < c.reach)
    (hind : (p = .addr ndirect ∨ (cover i).ind = true) ↔ c.ind = true) (hcost : c.cost = (cover i).cost + 1)
    (htail : ∀ bn, place bn = p → (cont i).length ≤ bn * bsize) :
    Layout t ptr' (update cover i c) cont := by
  have hnew : s.img s.freeblock = fun _ => 0 := h.zero _ le_rfl
  obtain ⟨hat, hother⟩ := eq_update_iff.mp hptr
  have hsum := @cost_update _ cover c hi
  refine ⟨?_, fun b hb => ?_, fun j bn => ?_, fun j => ?_, fun j off b hb => ?_, ?_⟩
  · rw [hptr]
    refine h.owned.fill hp (lt_irrefl _) fun b => ?_
    rw [hfree]
    omega
  · rw [hzero b (by omega)]
    exact h.zero b (by omega)
  · obtain rfl | hj := eq_or_ne j i
    · rw [update_self, ← hblocks bn]
      by_cases hbn : place bn = p
      · simp [hbn, hat]
      · rw [hother _ (by simpa using hbn), h.blocks]
        simp [hbn]
    · rw [update_of_ne hj, hother _ (by simp [hj])]
      exact h.blocks j bn
  · obtain rfl | hj := eq_or_ne j i
    · rw [update_self, ← hind]
      by_cases hpn : p = .addr ndirect
      · simp [← hpn, hat]
      · rw [hother _ (by simpa using Ne.symm hpn), h.indirect]
        simp [hpn]
    · rw [update_of_ne hj, hother _ (by simp [hj])]
      exact h.indirect j
  · by_cases hx : (j, place (off / bsize)) = (i, p)
    · obtain ⟨rfl, hbn⟩ := Prod.mk.inj hx
      rw [hx, hat] at hb
      obtain rfl := Option.some.inj hb
      have hle := htail _ hbn
      have hdiv := Nat.div_mul_le_self off bsize
      rw [hzero _ le_rfl, hnew, List.getD_eq_default _ _ (by omega)]
    · rw [hother _ hx] at hb
      rw [himg j _ b hb]
      exact h.bytes j off b hb
  · rw [hfree, h.count]
    omega

theorem Layout.recover (h : Layout s ptr cover cont)
    (hblocks : ∀ bn, bn * bsize < (cover i).reach ↔ bn * bsize < c.reach) (hind : (cover i).ind = c.ind)
    (hcost : c.cost = (cover i).cost) : Layout s ptr (update cover i c) cont := by
  refine ⟨h.owned, h.zero, fun j bn => ?_, fun j => ?_, h.bytes, ?_⟩
  · obtain rfl | hj := eq_or_ne j i
    · rw [update_self, h.blocks, hblocks]
    · rw [update_of_ne hj, h.blocks]
  · obtain rfl | hj := eq_or_ne j i
    · rw [update_self, h.indirect, hind]
    · rw [update_of_ne hj, h.indirect]
  · have hsum : ∑ j ∈ Finset.range ninodes, (update cover i c j).cost =
        ∑ j ∈ Finset.range ninodes, (cover j).cost := by
      refine Finset.sum_congr rfl fun j _ => ?_
      by_cases hj : j = i
      · rw [hj, update_self, hcost]
      · rw [update_of_ne hj]
    rw [hsum]
    exact h.count

structure Same (s t : Disk) : Prop where
  img : ∀ b, b < nmeta → t.img b = s.img b
  len : t.len = s.len
  freeinode : t.freeinode = s.freeinode

theorem Same.refl (s : Disk) : Same s s := ⟨fun _ _ => rfl, rfl, rfl⟩

theorem Same.trans {u : Disk} (h : Same s t) (h' : Same t u) : Same s u :=
  ⟨fun b hb => (h'.img b hb).trans (h.img b hb), h'.len.trans h.len, h'.freeinode.trans h.freeinode⟩

theorem iblock_lt (hi : i < ninodes) : iblock i < nmeta := by
  have hlt : i / ipb < ninodeblocks := by
    have hi : i < 200 := hi
    show i / 16 < 13
    omega
  unfold iblock nmeta inodestart
  omega

theorem Same.dinode (h : Same s t) (hi : i < ninodes) : t.dinode i = s.dinode i := by
  funext k
  simp only [Disk.dinode, h.img _ (iblock_lt hi)]

theorem Same.vol_dinode (h : Same s t) : t.vol.dinode = s.vol.dinode := by
  funext i
  simp only [Disk.vol]
  split_ifs with hi
  · rw [h.dinode hi]
  · rfl

theorem Same.view_ptr (h : Same s t) :
    (t.view i din).ptr = { s.view i din with blk := t.img }.ptr := by
  have hcur : ∀ j, (t.view i din).cur j = { s.view i din with blk := t.img }.cur j := by
    intro j
    simp only [Vol.cur]
    exact if_congr Iff.rfl rfl (congrFun h.vol_dinode j)
  funext x
  simp only [Vol.ptr, hcur]
  rfl

theorem view_setAddr (hk : k ≤ ndirect) (hb : b < 2 ^ 32) :
    s.view i (setAddr din k b) = (s.view i din).setIp i
      { (s.view i din).ip i with addrs := update ((s.view i din).ip i).addrs k b } := by
  rw [view_ip, ← decode_setAddr hk hb]
  simp [Disk.view, Vol.setIp, Vol.setEntry]

theorem view_fillAddr (h : Layout s (s.view i din).ptr cover cont) (hk : k ≤ ndirect)
    (hlt : s.freeblock < 2 ^ 32) (ht : (decode din).type ≠ .free) (h0 : dinAddr din k = 0) :
    (s.view i din).ptr (i, .addr k) = none ∧
      ({ s with freeblock := s.freeblock + 1 }.view i (setAddr din k s.freeblock)).ptr =
        update (s.view i din).ptr (i, .addr k) (some s.freeblock) := by
  have haddr : (decode din).addrs k = 0 := by simp [decode, hk, h0]
  have hpos : s.freeblock ≠ 0 := by
    have hcount := h.count
    have : 0 < nmeta := by decide
    omega
  have hnone : (s.view i din).ptr (i, .addr k) = none := by
    rw [Vol.ptr_active (view_active s i din), view_ip, Dinode.ptr_addr_zero haddr]
  refine ⟨hnone, ?_⟩
  have hsame : Same s { s with freeblock := s.freeblock + 1 } := ⟨fun _ _ => rfl, rfl, rfl⟩
  rw [hsame.view_ptr, ← if_neg (c := s.freeblock = 0) (t := none) (e := some s.freeblock) hpos,
    ← Vol.ptr_setAddr (view_active s i din) (by rwa [view_ip]) hk, ← view_setAddr hk hlt]
  · rfl
  · intro hkn m
    refine ⟨?_, fun _ => ?_⟩
    · rw [Vol.ptr_active (view_active s i din), view_ip]
      simp [Dinode.ptr, ← hkn, haddr]
    · show word (s.img s.freeblock) m = 0
      rw [h.zero _ le_rfl]
      exact word_zero m

structure SameInode (din din' : DinodeBytes) : Prop where
  type : (decode din').type = (decode din).type
  nlink : (decode din').nlink = (decode din).nlink

theorem SameInode.refl (din : DinodeBytes) : SameInode din din := ⟨rfl, rfl⟩

theorem SameInode.trans {din' din'' : DinodeBytes} (h : SameInode din din') (h' : SameInode din' din'') :
    SameInode din din'' := ⟨h'.type.trans h.type, h'.nlink.trans h.nlink⟩

theorem view_addr (hk : k ≤ ndirect) (ht : (decode din).type ≠ .free) (h0 : dinAddr din k ≠ 0) :
    (s.view i din).ptr (i, .addr k) = some (dinAddr din k) := by
  have haddr : (decode din).addrs k = dinAddr din k := by simp [decode, hk]
  rw [Vol.ptr_active (view_active s i din), view_ip, Dinode.ptr_addr ht hk (haddr ▸ h0), haddr]

theorem fillAddr_ensures (h : Layout s (s.view i din).ptr cover cont)
    (hi : i < ninodes) (hk : k ≤ ndirect) (hlt : s.freeblock < 2 ^ 32) (ht : (decode din).type ≠ .free)
    (hold : dinAddr din k ≠ 0 → Layout s (s.view i din).ptr (update cover i c) cont)
    (hnew : dinAddr din k = 0 →
      (∀ bn, (place bn = .addr k ∨ bn * bsize < (cover i).reach) ↔ bn * bsize < c.reach) ∧
      ((Place.addr k = .addr ndirect ∨ (cover i).ind = true) ↔ c.ind = true) ∧
      c.cost = (cover i).cost + 1 ∧ ∀ bn, place bn = .addr k → (cont i).length ≤ bn * bsize) :
    Ensures (fillAddr din k) s (fun d t => Layout t (t.view i d).ptr (update cover i c) cont ∧
      t.img = s.img ∧ Same s t ∧ SameInode din d ∧
      (t.view i d).ptr (i, .addr k) = some (dinAddr d k) ∧
      (t.freeblock = s.freeblock ∧ dinAddr d k < s.freeblock ∨
        t.freeblock = s.freeblock + 1 ∧ dinAddr d k = s.freeblock)) E := by
  unfold fillAddr
  split
  · next h0 =>
    obtain ⟨hblocks, hind, hcost, htail⟩ := hnew h0
    obtain ⟨hnone, hptr⟩ := view_fillAddr h hk hlt ht h0
    unfold nextBlock
    apply Ensures.bind
    apply Ensures.bind_get
    apply Ensures.bind_set
    apply Ensures.pure
    apply Ensures.pure
    have hself : dinAddr (setAddr din k s.freeblock) k = s.freeblock := dinAddr_setAddr_self hlt
    refine ⟨h.fill hi hnone hptr rfl (fun _ _ _ _ => rfl) (fun _ _ => rfl) hblocks hind hcost htail, rfl,
      ⟨fun _ _ => rfl, rfl, rfl⟩, ?_, ?_, .inr ⟨rfl, hself⟩⟩
    · exact ⟨by rw [decode_setAddr hk hlt], by rw [decode_setAddr hk hlt]⟩
    · rw [hptr, update_self, hself]
  · next h0 =>
    apply Ensures.pure
    have hat := view_addr (s := s) (i := i) hk ht h0
    exact ⟨hold h0, rfl, Same.refl s, SameInode.refl din, hat, .inl ⟨rfl, h.owned.used_of_ptr hat⟩⟩

theorem rsect_ensures {sec : Nat} (hE : s.len ≤ sec → E "read" s) :
    Ensures (rsect sec) s (fun buf t => buf = s.img sec ∧ s = t ∧ sec < s.len) E := by
  unfold rsect
  apply Ensures.bind_get
  split
  · next hlt => exact .pure ⟨rfl, rfl, hlt⟩
  · next hge => exact .throw (hE (not_lt.mp hge))

theorem Layout.recover_whole {m n : Nat} (h : Layout s ptr cover cont) (hc : cover i = Cover.whole m)
    (hm : 0 < m) (hn : 0 < n) (hmn : (m - 1) / bsize = (n - 1) / bsize) :
    Layout s ptr (update cover i (Cover.whole n)) cont := by
  have hb : bsize = 1024 := rfl
  have hd : ndirect = 12 := rfl
  have hind : (Cover.whole m).ind = (Cover.whole n).ind := by
    simp only [Cover.whole, hb, hd, decide_eq_decide] at hmn ⊢
    omega
  refine h.recover (fun bn => ?_) (by rw [hc, hind]) ?_
  · simp only [hc, Cover.whole, hb] at hmn ⊢
    omega
  · rw [hc, Cover.cost, Cover.cost, ← hind]
    simp only [Cover.whole, hb] at hmn ⊢
    omega

structure Appended (s : Disk) (i : Nat) (din : DinodeBytes) (cover : Nat → Cover)
    (cont : Nat → List UInt8) (d : DinodeBytes) (x : Nat) (t : Disk) : Prop where
  layout : Layout t (t.view i d).ptr (update cover i (Cover.whole ((cont i).length + 1))) cont
  same : Same s t
  inode : SameInode din d
  block : (t.view i d).ptr (i, place ((cont i).length / bsize)) = some x
  last : t.freeblock ≤ fssize ∨ t.freeblock = x + 1

theorem appendBlock_direct (h : Layout s (s.view i din).ptr cover cont)
    (hi : i < ninodes) (hfree : s.freeblock ≤ fssize) (ht : (decode din).type ≠ .free)
    (hc : cover i = Cover.whole (cont i).length) (hk : (cont i).length / bsize < ndirect) :
    Ensures (fillAddr din ((cont i).length / bsize)) s (fun d t =>
      Appended s i din cover cont d (dinAddr d ((cont i).length / bsize)) t) E := by
  have hb : bsize = 1024 := rfl
  have hd : ndirect = 12 := rfl
  have hlt : s.freeblock < 2 ^ 32 := lt_of_le_of_lt hfree (by decide)
  have hpres := h.blocks i ((cont i).length / bsize)
  rw [place_direct hk, hc] at hpres
  refine (fillAddr_ensures (c := Cover.whole ((cont i).length + 1)) h hi hk.le hlt ht
    (fun h0 => ?_) fun h0 => ?_).post ?_
  · have hin : (cont i).length / bsize * bsize < (cont i).length :=
      hpres.mp (by rw [view_addr hk.le ht h0]; simp)
    refine h.recover_whole hc (by omega) (by omega) ?_
    simp only [hb] at hin ⊢
    omega
  · have hnone := (view_fillAddr h hk.le hlt ht h0).1
    have hout : ¬ (cont i).length / bsize * bsize < (cont i).length := fun hin => hpres.mpr hin hnone
    simp only [hb, hd] at hk hout
    refine ⟨fun bn => ?_, ?_, ?_, fun bn hbn => ?_⟩
    · rw [place_eq_addr (by rw [hb, hd]; exact hk), hc]
      simp only [Cover.whole, hb]
      omega
    · simp only [hc, Cover.whole, hb, hd, Place.addr.injEq, decide_eq_true_eq]
      omega
    · simp only [hc, Cover.cost, Cover.whole, hb, hd, decide_eq_true_eq]
      split_ifs <;> omega
    · rw [place_eq_addr (by rw [hb, hd]; exact hk)] at hbn
      simp only [hbn, hb]
      omega
  · rintro d t ⟨hl, -, hsame, hino, hat, hlast⟩
    refine ⟨hl, hsame, hino, ?_, ?_⟩
    · rw [place_direct hk]
      exact hat
    · rcases hlast with ⟨he, -⟩ | ⟨he, hx⟩
      · exact .inl (he ▸ hfree)
      · exact .inr (by rw [he, hx])

theorem view_fillEntry {ind : Nat} (h : Layout s (s.view i din).ptr cover cont)
    (hind : (s.view i din).ptr (i, .addr ndirect) = some ind) (hk : k < nindirect)
    (hlt : s.freeblock < 2 ^ 32) (hlen : ind < s.len) :
    let t : Disk := { s with freeblock := s.freeblock + 1 }.write ind
      (putLE (s.img ind) (4 * k) s.freeblock 4)
    Same s t ∧ (t.view i din).ptr = update (s.view i din).ptr (i, .entry k) (some s.freeblock) := by
  intro t
  have hmeta : ¬ ind < nmeta := h.owned.apart hind
  have hsame : Same s t := by
    refine ⟨fun b hb => update_of_ne ?_ _ _, max_eq_left hlen, rfl⟩
    rintro rfl
    exact hmeta hb
  have hpos : s.freeblock ≠ 0 := by
    have := h.owned.used_of_ptr hind
    omega
  refine ⟨hsame, ?_⟩
  rw [hsame.view_ptr]
  exact Vol.ptr_setEntry hind (fun j hj => (Prod.mk.inj (h.owned.once hj hind)).1) hk hlt hpos

theorem fillEntry_ensures (h : Layout s (s.view i din).ptr cover cont) (hi : i < ninodes)
    (hs : s.len = fssize) (hlast : s.freeblock ≤ fssize ∨ s.freeblock = dinAddr din ndirect + 1)
    (hc : cover i = ⟨(cont i).length, true⟩) (hge : ¬ (cont i).length / bsize < ndirect)
    (hmax : (cont i).length / bsize < maxfile)
    (hind : (s.view i din).ptr (i, .addr ndirect) = some (dinAddr din ndirect))
    (hE : s.len ≤ dinAddr din ndirect → E "read" s) :
    Ensures (fillEntry din ((cont i).length / bsize - ndirect)) s (fun x t =>
      Appended s i din cover cont din x t) E := by
  have hb : bsize = 1024 := rfl
  have hd : ndirect = 12 := rfl
  have hk : (cont i).length / bsize - ndirect < nindirect := by
    unfold maxfile at hmax
    omega
  have hplace := place_indirect hge
  have hpres := h.blocks i ((cont i).length / bsize)
  rw [hplace, ptr_entry_of hind hk, hc] at hpres
  unfold fillEntry
  refine (rsect_ensures hE).seq ?_
  rintro _ _ ⟨rfl, rfl, hlen⟩
  have hfree : s.freeblock ≤ fssize := by
    rcases hlast with hle | he
    · exact hle
    · rw [he]
      exact hs ▸ hlen
  have hlt : s.freeblock < 2 ^ 32 := lt_of_le_of_lt hfree (by decide)
  split
  · next h0 =>
    have h0 : word ((s.view i din).blk (dinAddr din ndirect)) ((cont i).length / bsize - ndirect) = 0 := h0
    have hnone : (s.view i din).ptr (i, .entry ((cont i).length / bsize - ndirect)) = none := by
      rw [ptr_entry_of hind hk]
      simp [h0]
    have hout : ¬ (cont i).length / bsize * bsize < (cont i).length := fun hin => by
      simpa [h0] using hpres.mpr hin
    obtain ⟨hsame, hptr⟩ := view_fillEntry h hind hk hlt hlen
    have hused := h.owned.used_of_ptr hind
    unfold nextBlock wsect
    apply Ensures.bind
    apply Ensures.bind_get
    apply Ensures.bind_set
    apply Ensures.pure
    apply Ensures.bind_modify
    apply Ensures.pure
    refine ⟨h.fill hi hnone hptr rfl (fun j bn b hjb => ?_) (fun b hfree => ?_) (fun bn => ?_) ?_ ?_
      fun bn hbn => ?_, hsame, SameInode.refl din, ?_, .inr rfl⟩
    · refine update_of_ne ?_ _ _
      rintro rfl
      exact place_ne bn (Prod.mk.inj (h.owned.once hjb hind)).2
    · exact update_of_ne (by omega) _ _
    · rw [place_eq_entry, hc]
      simp only [Cover.whole, hb, hd] at hge hout ⊢
      omega
    · simp only [hc, Cover.whole, hb, hd, decide_eq_true_eq] at hge ⊢
      simp only [reduceCtorEq, or_true, true_iff]
      omega
    · simp only [hc, Cover.cost, Cover.whole, hb, hd, decide_eq_true_eq] at hge hout ⊢
      split_ifs <;> omega
    · rw [place_eq_entry] at hbn
      simp only [hbn, hb, hd] at hge hout ⊢
      omega
    · rw [hplace, hptr, update_self]
  · next h0 =>
    have h0 : word ((s.view i din).blk (dinAddr din ndirect)) ((cont i).length / bsize - ndirect) ≠ 0 := h0
    have hin : (cont i).length / bsize * bsize < (cont i).length := hpres.mp (by simp [h0])
    apply Ensures.pure
    refine ⟨h.recover (fun bn => ?_) ?_ ?_, Same.refl _, SameInode.refl din, ?_, .inl hfree⟩
    · rw [hc]
      simp only [Cover.whole, hb] at hin ⊢
      omega
    · simp only [hc, Cover.whole, hb, hd] at hge ⊢
      simp only [true_eq_decide_iff]
      omega
    · simp only [hc, Cover.cost, Cover.whole, hb, hd, decide_eq_true_eq] at hge hin ⊢
      split_ifs <;> omega
    · rw [hplace, ptr_entry_of hind hk]
      exact if_pos h0

def needs (cover : Nat → Cover) : Nat := nmeta + ∑ i ∈ Finset.range ninodes, (cover i).cost

theorem needs_mono {c' : Cover} (hc : c.cost ≤ c'.cost) :
    needs (update cover i c) ≤ needs (update cover i c') := by
  refine Nat.add_le_add_left (Finset.sum_le_sum fun j _ => ?_) _
  obtain rfl | hj := eq_or_ne j i
  · rw [update_self, update_self]
    exact hc
  · rw [update_of_ne hj, update_of_ne hj]

theorem appendBlock_ensures (h : Layout s (s.view i din).ptr cover cont) (hi : i < ninodes)
    (hs : s.len = fssize) (hfree : s.freeblock ≤ fssize) (ht : (decode din).type ≠ .free)
    (hc : cover i = Cover.whole (cont i).length) (hmax : (cont i).length / bsize < maxfile) :
    Ensures (appendBlock din ((cont i).length / bsize)) s (fun r t => Appended s i din cover cont r.1 r.2 t)
      (fun _ _ => fssize < needs (update cover i (Cover.whole ((cont i).length + 1)))) := by
  have hb : bsize = 1024 := rfl
  have hd : ndirect = 12 := rfl
  have hlt : s.freeblock < 2 ^ 32 := lt_of_le_of_lt hfree (by decide)
  unfold appendBlock
  split
  · next hk =>
    exact (appendBlock_direct h hi hfree ht hc hk).seq fun d t hd => .pure hd
  · next hge =>
    have hpres := h.indirect i
    rw [hc] at hpres
    have hcost : (Cover.mk (cont i).length true).cost ≤ (Cover.whole ((cont i).length + 1)).cost := by
      simp only [Cover.cost, Cover.whole, hb, hd, decide_eq_true_eq] at hge ⊢
      split_ifs <;> omega
    refine (fillAddr_ensures (c := ⟨(cont i).length, true⟩) h hi le_rfl hlt ht (fun h0 => ?_)
      fun h0 => ?_).seq ?_
    · have hin : (Cover.whole (cont i).length).ind = true :=
        hpres.mp (by rw [view_addr le_rfl ht h0]; simp)
      have hself : update cover i ⟨(cont i).length, true⟩ = cover := by
        rw [update_eq_self_iff, hc, ← hin]
        rfl
      rwa [hself]
    · have hnone := (view_fillAddr h le_rfl hlt ht h0).1
      have hout : (Cover.whole (cont i).length).ind = false :=
        Bool.eq_false_iff.mpr fun hin => hpres.mpr hin hnone
      refine ⟨fun bn => ?_, by simp, ?_, fun bn hbn => absurd hbn (place_ne bn)⟩
      · rw [hc]
        simp [place_ne, Cover.whole]
      · rw [hc, Cover.cost, Cover.cost, hout]
        simp [Cover.whole]
    · rintro d t ⟨hl, -, hsame, hino, hat, hlast⟩
      have hlen : t.len = fssize := hsame.len.trans hs
      have hlast' : t.freeblock ≤ fssize ∨ t.freeblock = dinAddr d ndirect + 1 := by
        rcases hlast with ⟨he, -⟩ | ⟨he, hx⟩
        · exact .inl (he ▸ hfree)
        · exact .inr (by rw [he, hx])
      refine (fillEntry_ensures hl hi hlen hlast' (by rw [update_self]) hge hmax hat
        fun hbig => ?_).seq fun x u hu => ?_
      · have hcount : t.freeblock = needs (update cover i ⟨(cont i).length, true⟩) := hl.count
        have hmono : needs (update cover i ⟨(cont i).length, true⟩) ≤
            needs (update cover i (Cover.whole ((cont i).length + 1))) := needs_mono hcost
        have hused := hl.owned.used_of_ptr hat
        omega
      · apply Ensures.pure
        refine ⟨?_, hsame.trans hu.same, hino.trans hu.inode, hu.block, hu.last⟩
        have hlay := hu.layout
        rwa [update_idem] at hlay

end Xv6.Mkfs
