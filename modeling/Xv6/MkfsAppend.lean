import Xv6.MkfsLayout

namespace Xv6.Mkfs

open Xv6.Lib Xv6.Lib.Words Xv6.Blocks Function
open Xv6.Inodes (bsize dirsiz direntSize rootino FileType)
open Xv6.LogSystem (memmove)

variable {s t : Disk} {i j k b x off : Nat} {din d : DinodeBytes} {cover : Nat → Cover}
  {cont : Nat → List UInt8} {ptr : Nat × Place → Option Nat} {p : Nat → UInt8}

def chunk (p : Nat → UInt8) (a n : Nat) : List UInt8 := (List.range n).map fun j => p (a + j)

@[simp] theorem length_chunk (p : Nat → UInt8) (a n : Nat) : (chunk p a n).length = n := by
  simp [chunk]

theorem chunk_append (p : Nat → UInt8) (a m n : Nat) :
    chunk p a m ++ chunk p (a + m) n = chunk p a (m + n) := by
  simp only [chunk, List.range_add, List.map_append, List.map_map]
  congr 1
  refine List.map_congr_left fun j _ => ?_
  simp [Nat.add_assoc]

theorem getD_chunk (p : Nat → UInt8) (a n : Nat) (hj : j < n) : (chunk p a n).getD j 0 = p (a + j) := by
  rw [List.getD_eq_getElem _ _ (by simpa using hj)]
  simp [chunk]

def covers (cont : Nat → List UInt8) (j : Nat) : Cover := Cover.whole (cont j).length

def grow (cont : Nat → List UInt8) (i : Nat) (l : List UInt8) : Nat → List UInt8 :=
  update cont i (cont i ++ l)

theorem covers_grow (l : List UInt8) :
    covers (grow cont i l) = update (covers cont) i (Cover.whole ((cont i).length + l.length)) := by
  funext j
  obtain rfl | hj := eq_or_ne j i
  · simp [covers, grow]
  · simp [covers, grow, hj]

theorem Layout.write {n a : Nat} (h : Layout s ptr cover cont)
    (hreach : (cover i).reach = (cont i).length + 1)
    (hx : ptr (i, place ((cont i).length / bsize)) = some x)
    (hn : (cont i).length + n ≤ ((cont i).length / bsize + 1) * bsize) :
    Layout (s.write x (memmove (s.img x) ((cont i).length - (cont i).length / bsize * bsize)
      (fun j => p (a + j)) n)) ptr cover (grow cont i (chunk p a n)) := by
  have hb : bsize = 1024 := rfl
  refine ⟨h.owned, fun b hbf => ?_, h.blocks, h.indirect, fun j off b hjb => ?_, h.count⟩
  · have hlt := h.owned.used_of_ptr hx
    have hne : b ≠ x := by
      rintro rfl
      exact absurd hlt (not_lt.mpr hbf)
    rw [write_img_of_ne _ _ hne]
    exact h.zero b hbf
  · have hold := h.bytes j off b hjb
    obtain rfl | hbx := eq_or_ne b x
    · obtain ⟨rfl, hpl⟩ := Prod.mk.inj (h.owned.once hjb hx)
      have hdiv := place_inj hpl
      simp only [write_img_self, grow, update_self, memmove]
      rw [hb] at hdiv hn hold ⊢
      split_ifs with hin
      · rw [List.getD_append_right _ _ _ _ (by omega), getD_chunk _ _ _ (by omega)]
        congr 2
        omega
      · rw [hold]
        by_cases hlt : off < (cont j).length
        · rw [List.getD_append _ _ _ _ hlt]
        · rw [List.getD_eq_default _ _ (by omega), List.getD_eq_default]
          rw [List.length_append, length_chunk]
          omega
    · rw [write_img_of_ne _ _ hbx, hold]
      obtain rfl | hj := eq_or_ne j i
      · have hin := (h.blocks j (off / bsize)).mp (by rw [hjb]; simp)
        have hne : off / bsize ≠ (cont j).length / bsize := fun he => by
          rw [he, hx] at hjb
          exact hbx (Option.some.inj hjb).symm
        rw [hreach, hb] at hin
        rw [hb] at hne
        rw [grow, update_self, List.getD_append _ _ _ _ (by omega)]
      · rw [grow, update_of_ne hj]

theorem whole_cost_mono {m n : Nat} (h : m ≤ n) : (Cover.whole m).cost ≤ (Cover.whole n).cost := by
  have hb : bsize = 1024 := rfl
  have hd : ndirect = 12 := rfl
  simp only [Cover.cost, Cover.whole, hb, hd, decide_eq_true_eq]
  split_ifs <;> omega

/-- No file is too large and there are enough blocks for all. -/
structure Fits (cont : Nat → List UInt8) : Prop where
  size : ∀ j, (cont j).length ≤ maxfile * bsize
  blocks : needs (covers cont) ≤ fssize

theorem not_fits_of_needs {l : List UInt8} (hl : 0 < l.length)
    (h : fssize < needs (update (covers cont) i (Cover.whole ((cont i).length + 1)))) :
    ¬ Fits (grow cont i l) := by
  intro hf
  have hmono : needs (update (covers cont) i (Cover.whole ((cont i).length + 1))) ≤
      needs (update (covers cont) i (Cover.whole ((cont i).length + l.length))) :=
    needs_mono (whole_cost_mono (by omega))
  have hblocks := hf.blocks
  rw [covers_grow] at hblocks
  omega

/-- The disk between the rounds of `iappend` on the inode `i`. -/
structure Appending (s : Disk) (i : Nat) (din : DinodeBytes) (cont : Nat → List UInt8) : Prop where
  layout : Layout s (s.view i din).ptr (covers cont) cont
  len : s.len = fssize
  free : s.freeblock ≤ fssize
  size : (cont i).length ≤ maxfile * bsize

theorem Appended.ptr_write {c : Nat → List UInt8} (h : Appended s i din cover c d x t) (buf : Block)
    (hlen : x < t.len) :
    Same t (t.write x buf) ∧ ((t.write x buf).view i d).ptr = (t.view i d).ptr := by
  have hsame : Same t (t.write x buf) := by
    refine ⟨fun b hb => update_of_ne ?_ _ _, max_eq_left hlen, rfl⟩
    rintro rfl
    exact h.layout.owned.apart h.block hb
  refine ⟨hsame, ?_⟩
  rw [hsame.view_ptr]
  refine Vol.ptr_blk fun j b hj => update_of_ne ?_ _ _
  rintro rfl
  exact place_ne _ (Prod.mk.inj (h.layout.owned.once h.block hj)).2

theorem appendBytes_ensures {n n1 done : Nat} (h : Appending s i din cont) (hi : i < ninodes)
    (ht : (decode din).type ≠ .free) (hn0 : 0 < n1) (hn : n1 ≤ n)
    (hfit : (cont i).length + n1 ≤ ((cont i).length / bsize + 1) * bsize)
    (hmax : (cont i).length / bsize < maxfile) :
    Ensures (appendBytes p n1 din (cont i).length done) s
      (fun d t => Appending t i d (grow cont i (chunk p done n1)) ∧ Same s t ∧ SameInode din d)
      (fun _ _ => ¬ Fits (grow cont i (chunk p done n))) := by
  have hb : bsize = 1024 := rfl
  have hpos : 0 < (chunk p done n).length := by simpa using lt_of_lt_of_le hn0 hn
  unfold appendBytes
  apply Ensures.bind
  refine (appendBlock_ensures h.layout hi h.len h.free ht rfl hmax).imp ?_
    fun _ _ hbig => not_fits_of_needs hpos hbig
  rintro ⟨d, x⟩ t hd
  have hlen : t.len = fssize := hd.same.len.trans h.len
  dsimp only
  refine (rsect_ensures fun hbig => ?_).seq ?_
  · have hused := hd.layout.owned.used_of_ptr hd.block
    have hcount : t.freeblock = needs _ := hd.layout.count
    refine not_fits_of_needs hpos ?_
    rw [← hcount]
    omega
  · rintro _ _ ⟨rfl, rfl, hlt⟩
    have hwrite := hd.layout.write (p := p) (a := done) (by rw [update_self]; rfl) hd.block hfit
    obtain ⟨hsame, hptr⟩ := hd.ptr_write (memmove (t.img x)
      ((cont i).length - (cont i).length / bsize * bsize) (fun j => p (done + j)) n1) hlt
    unfold wsect
    apply Ensures.bind_modify
    apply Ensures.pure
    refine ⟨⟨?_, hsame.len.trans hlen, ?_, ?_⟩, hd.same.trans hsame, hd.inode⟩
    · have hcover := hwrite.recover_whole (n := (cont i).length + n1) (update_self _ _ _)
        (by omega) (by omega) (by simp only [hb] at hfit ⊢; omega)
      rw [update_idem] at hcover
      rwa [covers_grow, length_chunk, hptr]
    · rcases hd.last with hle | he
      · exact hle
      · show t.freeblock ≤ fssize
        omega
    · rw [grow, update_self, List.length_append, length_chunk]
      have hmul : ((cont i).length / bsize + 1) * bsize ≤ maxfile * bsize := Nat.mul_le_mul_right _ hmax
      exact hfit.trans hmul

@[simp] theorem grow_self (cont : Nat → List UInt8) (i : Nat) (l : List UInt8) : grow cont i l i = cont i ++ l :=
  update_self _ _ _

theorem grow_of_ne (l : List UInt8) (hj : j ≠ i) : grow cont i l j = cont j := update_of_ne hj _ _

theorem grow_grow (l l' : List UInt8) : grow (grow cont i l) i l' = grow cont i (l ++ l') := by
  funext j
  obtain rfl | hj := eq_or_ne j i
  · simp
  · simp only [grow_of_ne _ hj]

@[simp] theorem grow_nil (cont : Nat → List UInt8) (i : Nat) : grow cont i [] = cont := by
  simp [grow]

theorem appendLoop_ensures (n rounds done : Nat) (h : Appending s i din cont) (hi : i < ninodes)
    (ht : (decode din).type ≠ .free) (hrounds : n - done ≤ rounds) :
    Ensures (appendLoop p n rounds din (cont i).length done) s
      (fun r t => Appending t i r.1 (grow cont i (chunk p done (n - done))) ∧ Same s t ∧ SameInode din r.1 ∧
        r.2 = (cont i).length + (n - done))
      (fun _ _ => ¬ Fits (grow cont i (chunk p done (n - done)))) := by
  have hb : bsize = 1024 := rfl
  induction rounds generalizing s din cont done with
  | zero =>
    have hd : n - done = 0 := by omega
    apply Ensures.pure
    simpa [hd, chunk] using ⟨h, Same.refl s, SameInode.refl din⟩
  | succ rounds ih =>
    unfold appendLoop
    split_ifs with hlt hmax
    · refine .throw fun hf => ?_
      have hsize := hf.size i
      rw [grow_self, List.length_append, length_chunk] at hsize
      rw [hb] at hsize hmax
      omega
    · obtain ⟨n1, hn1⟩ : ∃ n1, n1 = min (n - done) (((cont i).length / bsize + 1) * bsize - (cont i).length) :=
        ⟨_, rfl⟩
      have hrange : 0 < n1 ∧ n1 ≤ n - done ∧
          (cont i).length + n1 ≤ ((cont i).length / bsize + 1) * bsize := by
        rw [hb] at hn1 ⊢
        omega
      have hlen : (cont i).length + n1 = (grow cont i (chunk p done n1) i).length := by simp
      have hwhole : grow (grow cont i (chunk p done n1)) i (chunk p (done + n1) (n - (done + n1))) =
          grow cont i (chunk p done (n - done)) := by
        rw [grow_grow, chunk_append]
        congr 2
        omega
      dsimp only
      rw [← hn1]
      refine (appendBytes_ensures (n := n - done) h hi ht hrange.1 hrange.2.1 hrange.2.2 (not_le.mp hmax)).seq ?_
      rintro d t ⟨hd, hsame, hino⟩
      rw [hlen, ← hwhole]
      refine (ih (done + n1) hd (hino.type ▸ ht) (by omega)).post ?_
      rintro ⟨d', off⟩ u ⟨hd', hsame', hino', hoff⟩
      refine ⟨hd', hsame.trans hsame', hino.trans hino', ?_⟩
      simp only at hoff
      rw [hoff, ← hlen]
      omega
    · have hd : n - done = 0 := by omega
      apply Ensures.pure
      simpa [hd, chunk] using ⟨h, Same.refl s, SameInode.refl din⟩

end Xv6.Mkfs
