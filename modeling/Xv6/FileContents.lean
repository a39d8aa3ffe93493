import Xv6.BlockContents
import Xv6.BlockOwnership
import Mathlib.Tactic.IntervalCases

namespace Xv6.Blocks

open Xv6.Lib Xv6.Lib.Words
open Xv6.Inodes (FileType bsize)

variable {v w : Vol} {i j k n off tot : Nat} {c : UInt8} {data : Nat → UInt8}

def Vol.byteAt (v : Vol) (i k : Nat) : UInt8 :=
  match v.ptr (i, place (k / bsize)) with
  | some b => v.blk b (k % bsize)
  | none => 0

theorem Vol.Has.byteAt (h : v.Has i k c) : v.byteAt i k = c := by
  obtain ⟨b, hb, hc⟩ := h
  rw [Vol.byteAt, hb]
  exact hc

theorem Vol.has_byteAt (h : v.ptr (i, place (k / bsize)) ≠ none) : v.Has i k (v.byteAt i k) := by
  obtain ⟨b, hb⟩ := Option.ne_none_iff_exists'.mp h
  refine ⟨b, hb, ?_⟩
  rw [Vol.byteAt, hb]

theorem Vol.Full.ptr (h : v.Full i) (ht : (v.cur i).type ≠ .free) (hk : k < (v.cur i).size) :
    v.ptr (i, place (k / bsize)) ≠ none :=
  (h ht).2 _ (lt_of_le_of_lt (Nat.div_mul_le_self k bsize) hk)

theorem Sound.stores (h : Sound none v) (ha : v.Active i) :
    v.Stores i (v.ip i).size (v.byteAt i) := by
  intro k hk
  have ht : (v.cur i).type ≠ .free := by
    rw [Vol.cur_active ha]
    exact h.live i (Option.some_ne_none _) ha
  rw [← Vol.cur_active ha] at hk
  exact Vol.has_byteAt ((h.full i (Option.some_ne_none _)).ptr ht hk)

def Vol.ReadsBack (v : Vol) (i : Nat) : Prop :=
  ∀ (dst : Dst) (off n : UInt32), (∀ tot m, dst.fails tot m = false) →
    Ensures (readi i dst off n) v
      (fun r w => v = w ∧ r.1 = readCount (v.ip i).size off.toNat n.toNat ∧
        ∀ k, k < readCount (v.ip i).size off.toNat n.toNat → r.2 k = v.byteAt i (off.toNat + k))
      (fun _ _ => False)

theorem Sound.readsBack (h : Sound none v) (ha : v.Active i) : v.ReadsBack i :=
  fun _ off n hdst => readi_stores hdst ha off n (h.stores ha)

/-- The result of a write of `n` bytes of `data` at `off`. -/
def Wrote (i off n : Nat) (data : Nat → UInt8) (v : Vol) (r : Int) (w : Vol) : Prop :=
  ∃ tot : Nat, r = tot ∧ tot ≤ n ∧ ((v.missing i off n).card ≤ v.freeBlocks.card → tot = n) ∧
    (w.ip i).size = max (v.ip i).size (off + tot) ∧
    (∀ k, k < (w.ip i).size →
      w.byteAt i k = if off ≤ k ∧ k < off + tot then data (k - off) else v.byteAt i k) ∧
    ∀ j, j ≠ i → w.cur j = v.cur j ∧ ∀ k, w.byteAt j k = v.byteAt j k

theorem Rewritten.byteAt_other (h : Rewritten i off n tot data v w) (hj : j ≠ i)
    (k : Nat) : w.byteAt j k = v.byteAt j k := by
  by_cases hp : v.ptr (j, place (k / bsize)) = none
  · have hpw : w.ptr (j, place (k / bsize)) = none := by
      by_contra hne
      exact hj (h.filled (j, place (k / bsize)) (hp.symm ▸ hne)).1
    rw [Vol.byteAt, Vol.byteAt, hp, hpw]
  · exact (h.outside j k _ (Vol.has_byteAt hp) (.inl hj)).byteAt

theorem Rewritten.cur_other (h : Rewritten i off n tot data v w) (hj : j ≠ i) :
    w.cur j = v.cur j := by
  obtain ⟨htab, hdin⟩ := h.others j hj
  have hact : w.Active j ↔ v.Active j := by simp only [Vol.Active, htab]
  simp only [Vol.cur, hact, Vol.ip, htab, hdin]

theorem Rewritten.byteAt_self (h : Rewritten i off n tot data v w)
    (hst : v.Stores i (v.ip i).size (v.byteAt i)) (hoff : off ≤ (v.ip i).size) (hk : k < (w.ip i).size) :
    w.byteAt i k = if off ≤ k ∧ k < off + tot then data (k - off) else v.byteAt i k := by
  split
  · next hin => exact (h.inside k hin.1 hin.2).byteAt
  · next hout =>
    have hk' : k < (v.ip i).size := by
      rw [h.fields.2.2] at hk
      omega
    exact (h.outside i k _ (hst k hk') (.inr (by omega))).byteAt

structure SameFile (j : Nat) (v w : Vol) : Prop where
  type : (w.cur j).type = (v.cur j).type
  nlink : (w.cur j).nlink = (v.cur j).nlink
  size : (w.cur j).size = (v.cur j).size
  bytes : ∀ k, k < (v.cur j).size → w.byteAt j k = v.byteAt j k

namespace SameFile

variable {u : Vol}

theorem trans (h : SameFile j v w) (h' : SameFile j w u) : SameFile j v u where
  type := h'.type.trans h.type
  nlink := h'.nlink.trans h.nlink
  size := h'.size.trans h.size
  bytes k hk := (h'.bytes k (h.size ▸ hk)).trans (h.bytes k hk)

theorem of_cur (hcur : w.cur j = v.cur j) (hbytes : ∀ k, w.byteAt j k = v.byteAt j k) :
    SameFile j v w :=
  ⟨by rw [hcur], by rw [hcur], by rw [hcur], fun k _ => hbytes k⟩

theorem refl (j : Nat) (v : Vol) : SameFile j v v := of_cur rfl fun _ => rfl

end SameFile

theorem SameFiles.file (h : SameFiles v w) (j : Nat) : SameFile j v w := by
  refine .of_cur (h.cur j) fun k => ?_
  rw [Vol.byteAt, Vol.byteAt, h.ptr, h.blk]

theorem Rewritten.file_other (h : Rewritten i off n tot data v w) (hj : j ≠ i) :
    SameFile j v w :=
  .of_cur (h.cur_other hj) (h.byteAt_other hj)

theorem Rewritten.file_self (h : Rewritten i off n 0 data v w) (ha : v.Active i)
    (haw : w.Active i) (hst : v.Stores i (v.ip i).size (v.byteAt i)) (hoff : off ≤ (v.ip i).size) :
    SameFile i v w := by
  obtain ⟨htype, hlink, hsize⟩ := h.fields
  rw [Nat.add_zero, max_eq_left hoff] at hsize
  refine ⟨?_, ?_, ?_, fun k hk => ?_⟩
  · rw [Vol.cur_active haw, Vol.cur_active ha, htype]
  · rw [Vol.cur_active haw, Vol.cur_active ha, hlink]
  · rw [Vol.cur_active haw, Vol.cur_active ha, hsize]
  · rw [Vol.cur_active ha] at hk
    rw [h.byteAt_self hst hoff (hsize ▸ hk), if_neg (by omega)]

/-- Reads return the contents of a file and writes replace part of it. -/
theorem file_content_law (hv : v.WellFormed) (ha : v.Active i) : v.ReadsBack i ∧
    ∀ (src : Src) (data : Nat → UInt8) (off n : UInt32), src.Gives n.toNat data →
      off.toNat ≤ (v.ip i).size → off.toNat + n.toNat ≤ maxfile * bsize →
      Ensures (writei i src off n) v
        (fun r w => Wrote i off.toNat n.toNat data v r w ∧ w.WellFormed ∧ w.Active i ∧ w.ReadsBack i)
        (fun _ _ => False) := by
  refine ⟨hv.readsBack ha, fun src data off n hsrc hoff hmax => ?_⟩
  refine ((writei_written hsrc hv ha hoff hmax).both (writei_ensures hv ha src off n)).post ?_
  rintro r w ⟨⟨tot, hr, hle, hre, hstop⟩, hw, hk⟩
  have haw := hk.active i ha
  refine ⟨⟨tot, hr, hle, fun hroom => ?_, hre.fields.2.2,
    fun k hk => hre.byteAt_self (hv.stores ha) hoff hk,
    fun j hj => ⟨hre.cur_other hj, hre.byteAt_other hj⟩⟩, hw, haw, hw.readsBack haw⟩
  by_contra hne
  have hlt : tot < n.toNat := by omega
  obtain ⟨hfull, hnone, -⟩ := hstop hlt
  have hp : place ((off.toNat + tot) / bsize) ∈ places off.toNat n.toNat :=
    mem_places.mpr ⟨off.toNat + tot, by omega, by omega, .inl rfl⟩
  have := hre.freeBlocks_lt hv.owned hw.owned hfull hp hnone
  omega

def openRoot : Vol := (freshVol 0).setEntry 1 ⟨1, true, (freshVol 0).dinode 1⟩

theorem openRoot_wellFormed : openRoot.WellFormed :=
  freshVol_wellFormed.setEntry fun _ _ => ⟨rfl, by decide⟩

/-- Two blocks are written to the fresh disk. -/
theorem file_content_law_openRoot : openRoot.ReadsBack 1 ∧
    Ensures (writei 1 (.kernel fun _ => 7) 0 1500) openRoot
      (fun r w => Wrote 1 0 1500 (fun _ => 7) openRoot r w ∧ w.WellFormed ∧ w.Active 1 ∧ w.ReadsBack 1)
      (fun _ _ => False) := by
  have h := file_content_law openRoot_wellFormed (i := 1) ⟨by decide, rfl⟩
  exact ⟨h.1, h.2 (.kernel fun _ => 7) (fun _ => 7) 0 1500 (fun _ _ => rfl) (Nat.zero_le _) (by decide)⟩

/-- Every file has all its blocks, and `readi` leaves everything as it is, also the free blocks that `balloc`
would take. -/
theorem reading_never_allocates {ops : List Op} (hv : v.WellFormed)
    (hr : Run opStep (fun v op => op.Allowed v) v ops w) :
    (∀ i, w.Full i) ∧ ∀ i, w.Active i → ∀ (bit : Nat → Bool) (dst : Dst) (off n : UInt32),
      Ensures (readi i dst off n) { w with bit := bit } (fun _ u => u = { w with bit := bit })
        (fun _ _ => False) := by
  have hw : w.WellFormed := hr.invariant (fun _ _ _ h hop hs => opStep_wellFormed h hop hs) hv
  have hfull : ∀ i, w.Full i := fun i => hw.full i (Option.some_ne_none _)
  refine ⟨hfull, fun i ha bit dst off n => ?_⟩
  exact readi_ensures (v := { w with bit := bit }) ha (hw.live i (Option.some_ne_none _) ha) (hfull i) dst off n

/-- The disk fills up while a file is written. -/
theorem reading_never_allocates_fullDisk : ∃ w : Vol, ((∀ i, w.Full i) ∧ ∀ i, w.Active i →
      ∀ (bit : Nat → Bool) (dst : Dst) (off n : UInt32), Ensures (readi i dst off n) { w with bit := bit }
        (fun _ u => u = { w with bit := bit }) (fun _ _ => False)) ∧ w.Active 2 ∧ w.bit 7 = true := by
  have hrun : ∃ w : Vol, Run opStep (fun v op => op.Allowed v) (freshVol 0) [.iget 1, .idup 1,
      .create 1 oneLetter .file, .writei 2 (.kernel fun _ => 1) 0 5000] w ∧
      w.Active 2 ∧ w.bit 7 = true := Run.exists_of_outcome (by decide +kernel)
  obtain ⟨w, hr, hw⟩ := hrun
  exact ⟨w, reading_never_allocates freshVol_wellFormed hr, hw⟩

/-- The block of block numbers of the file 1 is also the first block of the file 2. -/
def sharedVol : Vol where
  size := 64
  nmeta := 4
  ninodes := 4
  bit _ := true
  blk b := if b = 32 then putLE (fun _ => 0) 0 40 4 else fun _ => 0
  dinode i :=
    if i = 1 then ⟨.file, 1, 13 * bsize, fun k => 20 + k⟩
    else if i = 2 then ⟨.file, 1, bsize, fun k => if k = 0 then 32 else 0⟩
    else Dinode.zero
  itable i := ⟨if i = 2 then 1 else 0, false, Dinode.zero⟩

theorem sharedVol_full (i : Nat) : sharedVol.Full i := by
  have hidle : ∀ i, ¬sharedVol.Active i := fun i h => Bool.false_ne_true h.2
  intro ht
  rw [Vol.cur, if_neg (hidle i)] at ht ⊢
  obtain rfl | h1 := eq_or_ne i 1
  · refine ⟨by decide, fun bn hbn => ?_⟩
    have hlt : bn < 13 := Nat.lt_of_mul_lt_mul_right hbn
    rw [ptr_dinode hidle]
    interval_cases bn <;> decide
  · obtain rfl | h2 := eq_or_ne i 2
    · refine ⟨by decide, fun bn hbn => ?_⟩
      have hlt : bn < 1 := Nat.lt_of_mul_lt_mul_right (a := bsize) (by rwa [Nat.one_mul])
      rw [ptr_dinode hidle]
      interval_cases bn
      decide
    · have hfree : (sharedVol.dinode i).type = .free := by simp [sharedVol, h1, h2, Dinode.zero]
      exact absurd hfree ht

/-- Without ownership of the blocks a write to one file makes a hole in another. -/
theorem shared_block_makes_hole : ∃ (v w : Vol) (ops : List Op), (∀ i, v.Full i) ∧
    Run opStep (fun v op => op.Allowed v) v ops w ∧ ¬ ∀ i, w.Full i := by
  have hrun : ∃ w : Vol, Run opStep (fun v op => op.Allowed v) sharedVol
      [.writei 2 (.kernel fun _ => 0) 0 4] w ∧ ¬w.Active 1 ∧ (w.dinode 1).type = .file ∧
      12 * bsize < (w.dinode 1).size ∧ (w.dinode 1).ptr w.blk (place 12) = none :=
    Run.exists_of_outcome (by decide +kernel)
  obtain ⟨w, hr, hidle, htype, hsize, hnone⟩ := hrun
  refine ⟨sharedVol, w, _, sharedVol_full, hr, fun h => ?_⟩
  have hcur : w.cur 1 = w.dinode 1 := if_neg hidle
  have hfull := (h 1 (by rw [hcur, htype]; decide)).2 12 (by rw [hcur]; exact hsize)
  rw [Vol.ptr, hcur, hnone] at hfull
  exact hfull rfl

end Xv6.Blocks
