import Xv6.BlockOwner
import Xv6.Lib.Bits
import Xv6.Mkfs

namespace Xv6.Bitmap

open Xv6.Lib Xv6.Lib.Bits Function
open Xv6.Mkfs (bpb)

/-- The fields of the superblock that they read. -/
structure Superblock where
  size : Nat
  bmapstart : Nat

abbrev M := EStateM String (Nat → Block)

def Superblock.bblock (sb : Superblock) (b : Nat) : Nat := b / bpb + sb.bmapstart

def bzero (bno : Nat) : M Unit := modify fun img => update img bno fun _ => 0

/-- The inner loop of `balloc`: the first `bi` whose bit is clear. -/
def scan (sb : Superblock) (data : Block) (b : Nat) : Nat → Nat → Option Nat
  | 0, _ => none
  | rounds + 1, bi =>
    if bi < bpb ∧ b + bi < sb.size then
      if data (bi / 8) &&& mask (bi % 8) = 0 then some bi else scan sb data b rounds (bi + 1)
    else none

def ballocLoop (sb : Superblock) : Nat → Nat → M Nat
  | 0, _ => throw "rounds"
  | rounds + 1, b => do
    if b < sb.size then
      let img ← get
      let data := img (sb.bblock b)
      match scan sb data b bpb 0 with
      | some bi =>
        set (update img (sb.bblock b)
          (update data (bi / 8) (data (bi / 8) ||| mask (bi % 8))))
        bzero (b + bi)
        return b + bi
      | none => ballocLoop sb rounds (b + bpb)
    else
      return 0

def balloc (sb : Superblock) : M Nat := ballocLoop sb (sb.size / bpb + 2) 0

def bfree (sb : Superblock) (b : Nat) : M Unit := do
  let img ← get
  let data := img (sb.bblock b)
  let bi := b % bpb
  if data (bi / 8) &&& mask (bi % 8) = 0 then
    throw "freeing free block"
  set (update img (sb.bblock b) (update data (bi / 8) (data (bi / 8) &&& ~~~ mask (bi % 8))))

section Scan

variable {sb : Superblock} {data : Block} {img : Nat → Block} {b bi : Nat}

theorem scan_some {rounds j : Nat} (h : scan sb data b rounds bi = some j) :
    bi ≤ j ∧ j < bpb ∧ b + j < sb.size ∧ bitAt data j = false ∧ ∀ k, bi ≤ k → k < j → bitAt data k = true := by
  induction rounds generalizing bi with
  | zero => exact absurd h (by simp [scan])
  | succ rounds ih =>
    rw [scan] at h
    split at h
    · next hlt =>
      split at h
      · next hzero =>
        obtain rfl := Option.some.inj h
        exact ⟨Nat.le_refl _, hlt.1, hlt.2, decide_eq_false (not_not.mpr hzero),
          fun k hk hk' => absurd hk' (by omega)⟩
      · next hset =>
        obtain ⟨hle, hj, hsize, hclear, hbefore⟩ := ih h
        refine ⟨by omega, hj, hsize, hclear, fun k hk hk' => ?_⟩
        by_cases hkb : k = bi
        · rw [hkb]
          exact decide_eq_true hset
        · exact hbefore k (by omega) hk'
    · exact absurd h (by simp)

theorem scan_none {rounds : Nat} (h : scan sb data b rounds bi = none) (hrounds : bpb ≤ bi + rounds) :
    ∀ k, bi ≤ k → k < bpb → b + k < sb.size → bitAt data k = true := by
  intro k hk hlt hsize
  induction rounds generalizing bi with
  | zero => omega
  | succ rounds ih =>
    rw [scan, if_pos (by omega)] at h
    split at h
    · exact absurd h (by simp)
    · next hset =>
      by_cases hkb : k = bi
      · rw [hkb]
        exact decide_eq_true hset
      · exact ih h (by omega) (by omega)

def Superblock.bit (sb : Superblock) (img : Nat → Block) (b : Nat) : Bool := bitAt (img (sb.bblock b)) (b % bpb)

/-- The bit of block `b` is in one of the blocks of the bitmap. -/
def Superblock.InMap (sb : Superblock) (b : Nat) : Prop := b / bpb * bpb < sb.size

theorem bpb_pos : 0 < bpb := by decide

theorem bit_of_block {i : Nat} (hb : bpb ∣ b) (hi : i < bpb) :
    sb.bblock (b + i) = sb.bblock b ∧ sb.bit img (b + i) = bitAt (img (sb.bblock b)) i := by
  obtain ⟨q, rfl⟩ := hb
  have hdiv : (bpb * q + i) / bpb = bpb * q / bpb := by
    rw [Nat.mul_add_div bpb_pos, Nat.div_eq_of_lt hi, Nat.add_zero, Nat.mul_div_cancel_left q bpb_pos]
  have hblock : sb.bblock (bpb * q + i) = sb.bblock (bpb * q) := congrArg (· + sb.bmapstart) hdiv
  refine ⟨hblock, ?_⟩
  rw [Superblock.bit, hblock, Nat.mul_add_mod, Nat.mod_eq_of_lt hi]

end Scan

section Balloc

variable {sb : Superblock} {img img' : Nat → Block} {b r : Nat}

def Superblock.taken (sb : Superblock) (img : Nat → Block) (r : Nat) : Nat → Block :=
  update (update img (sb.bblock r) (setBit (img (sb.bblock r)) (r % bpb))) r fun _ => 0

def Allocates (sb : Superblock) (img : Nat → Block) (r : Nat) (img' : Nat → Block) : Prop :=
  (r = 0 ∧ img' = img ∧ ∀ c, c < sb.size → sb.bit img c = true) ∨
    r < sb.size ∧ sb.bit img r = false ∧ (∀ c, c < r → sb.bit img c = true) ∧ img' = sb.taken img r

theorem ballocLoop_ensures {rounds q : Nat} (hrounds : sb.size / bpb + 2 ≤ q + rounds) (hq : q ≤ sb.size / bpb + 1)
    (hset : ∀ c, c < bpb * q → c < sb.size → sb.bit img c = true) :
    Completes (ballocLoop sb rounds (bpb * q)) img (Allocates sb img) := by
  induction rounds generalizing q with
  | zero => omega
  | succ rounds ih =>
    have hpos := bpb_pos
    unfold ballocLoop
    by_cases hb : bpb * q < sb.size
    · rw [if_pos hb]
      apply Ensures.bind_get
      dsimp only
      cases hscan : scan sb (img (sb.bblock (bpb * q))) (bpb * q) bpb 0 with
      | some j =>
        obtain ⟨-, hj, hsize, hclear, hbefore⟩ := scan_some hscan
        obtain ⟨hblock, hbit⟩ := @bit_of_block sb img _ j (Nat.dvd_mul_right bpb q) hj
        apply Ensures.bind_set
        apply Ensures.bind_modify
        refine .pure (.inr ⟨hsize, hbit.trans hclear, fun c hc => ?_, ?_⟩)
        · by_cases hcb : c < bpb * q
          · exact hset c hcb (by omega)
          · obtain ⟨k, rfl⟩ : ∃ k, c = bpb * q + k := ⟨c - bpb * q, by omega⟩
            rw [(bit_of_block (Nat.dvd_mul_right bpb q) (by omega)).2]
            exact hbefore k (Nat.zero_le k) (by omega)
        · rw [Superblock.taken, hblock, Nat.mul_add_mod, Nat.mod_eq_of_lt hj]
          rfl
      | none =>
        have hle : q ≤ sb.size / bpb := (Nat.le_div_iff_mul_le hpos).mpr (by rw [Nat.mul_comm]; exact hb.le)
        refine @ih (q + 1) (by omega) (by omega) fun c hc hsize => ?_
        by_cases hcb : c < bpb * q
        · exact hset c hcb hsize
        · rw [Nat.mul_succ] at hc
          obtain ⟨k, rfl⟩ : ∃ k, c = bpb * q + k := ⟨c - bpb * q, by omega⟩
          rw [(bit_of_block (Nat.dvd_mul_right bpb q) (by omega)).2]
          exact scan_none hscan (by omega) k (Nat.zero_le k) (by omega) hsize
    · rw [if_neg hb]
      exact .pure (.inl ⟨rfl, rfl, fun c hc => hset c (by omega) hc⟩)

theorem balloc_allocates (sb : Superblock) (img : Nat → Block) :
    Completes (balloc sb) img (Allocates sb img) := by
  have h : Completes (ballocLoop sb (sb.size / bpb + 2) (bpb * 0)) img (Allocates sb img) :=
    ballocLoop_ensures (Nat.le_of_eq (Nat.zero_add _).symm) (Nat.zero_le _) fun c hc => absurd hc (by omega)
  exact h

theorem bfree_ensures (hb : sb.bit img b = true) : Completes (bfree sb b) img
    (fun _ img' => img' = update img (sb.bblock b) (clearBit (img (sb.bblock b)) (b % bpb))) := by
  unfold bfree
  apply Ensures.bind_get
  dsimp only
  rw [if_neg (of_decide_eq_true hb)]
  exact .set rfl

theorem bit_congr (h : img' (sb.bblock b) = img (sb.bblock b)) : sb.bit img' b = sb.bit img b := by
  rw [Superblock.bit, h, Superblock.bit]

theorem bit_update {g : Block} (c : Nat) : sb.bit (update img (sb.bblock b) g) c =
    if c / bpb = b / bpb then bitAt g (c % bpb) else sb.bit img c := by
  have hiff : sb.bblock c = sb.bblock b ↔ c / bpb = b / bpb := Nat.add_right_cancel_iff
  split
  · next h => rw [Superblock.bit, hiff.mpr h, update_self]
  · next h => exact bit_congr (update_of_ne (fun hc => h (hiff.mp hc)) ..)

theorem eq_iff_div_mod {c : Nat} (h : c / bpb = b / bpb) : c % bpb = b % bpb ↔ c = b := by
  constructor
  · intro hm
    rw [← Nat.div_add_mod c bpb, ← Nat.div_add_mod b bpb, h, hm]
  · rintro rfl
    rfl

theorem bit_setBit (c : Nat) :
    sb.bit (update img (sb.bblock b) (setBit (img (sb.bblock b)) (b % bpb))) c =
      (decide (c = b) || sb.bit img c) := by
  rw [bit_update]
  split
  · next h =>
    have hblock : sb.bblock c = sb.bblock b := congrArg (· + sb.bmapstart) h
    rw [bitAt_setBit, Superblock.bit, hblock]
    exact congrArg (· || _) (decide_eq_decide.mpr (eq_iff_div_mod h))
  · next h =>
    have hne : c ≠ b := fun hc => h (by rw [hc])
    rw [decide_eq_false hne, Bool.false_or]

theorem bit_clearBit (c : Nat) :
    sb.bit (update img (sb.bblock b) (clearBit (img (sb.bblock b)) (b % bpb))) c =
      (decide (c ≠ b) && sb.bit img c) := by
  rw [bit_update]
  split
  · next h =>
    have hblock : sb.bblock c = sb.bblock b := congrArg (· + sb.bmapstart) h
    rw [bitAt_clearBit, Superblock.bit, hblock]
    exact congrArg (· && _) (decide_eq_decide.mpr (not_congr (eq_iff_div_mod h)))
  · next h =>
    have hne : c ≠ b := fun hc => h (by rw [hc])
    rw [decide_eq_true hne, Bool.true_and]

def Superblock.Reserved (sb : Superblock) (img : Nat → Block) : Prop :=
  ∀ b, sb.InMap b → sb.bit img (sb.bblock b) = true

theorem Superblock.Reserved.ne (h : sb.Reserved img) (hr : sb.bit img r = false) (hb : sb.InMap b) :
    sb.bblock b ≠ r := by
  rintro rfl
  exact absurd (hr.symm.trans (h b hb)) (by simp)

theorem inMap_of_lt (h : b < sb.size) : sb.InMap b := (Nat.div_mul_le_self b bpb).trans_lt h

theorem bit_taken (h : sb.Reserved img) (hr : sb.bit img r = false) (hb : sb.InMap b) :
    sb.bit (sb.taken img r) b = (decide (b = r) || sb.bit img b) := by
  rw [← bit_setBit]
  exact bit_congr (update_of_ne (h.ne hr hb) ..)

theorem bfree_taken (h : sb.Reserved img) (hr : sb.bit img r = false) (hlt : r < sb.size) :
    Completes (bfree sb r) (sb.taken img r) (fun _ img' => img' = update img r fun _ => 0) := by
  have hin := inMap_of_lt hlt
  have hne := h.ne hr hin
  have hset : sb.bit (sb.taken img r) r = true := by rw [bit_taken h hr hin, decide_eq_true rfl, Bool.true_or]
  have hdata : sb.taken img r (sb.bblock r) = setBit (img (sb.bblock r)) (r % bpb) := by
    rw [Superblock.taken, update_of_ne hne, update_self]
  refine (bfree_ensures hset).post fun _ img' himg => ?_
  rw [himg, hdata, clearBit_setBit hr, Superblock.taken, update_comm hne.symm, update_idem,
    update_eq_self]

/-- `balloc` returns the lowest free block, marked and cleared, or 0 when there is none, and `bfree` clears the
bit that `balloc` tests; the other bits and the other blocks stay. -/
theorem bitmap_is_exact (h0 : sb.bit img 0 = true) (hmap : sb.Reserved img) :
    Ensures (balloc sb) img
      (fun r img' => (r = 0 ↔ ∀ b, b < sb.size → sb.bit img b = true) ∧ (r = 0 → img' = img) ∧
        (r ≠ 0 → r < sb.size ∧ sb.bit img r = false ∧ (∀ b, b < r → sb.bit img b = true) ∧
          (∀ b, sb.InMap b → sb.bit img' b = (decide (b = r) || sb.bit img b)) ∧ (∀ k, img' r k = 0) ∧
          (∀ c, c ≠ r → c ≠ sb.bblock r → img' c = img c) ∧
          Ensures (bfree sb r) img'
            (fun _ img'' => (∀ b, sb.InMap b → sb.bit img'' b = sb.bit img b) ∧ ∀ c, c ≠ r → img'' c = img c)
            (fun _ _ => False)))
      (fun _ _ => False) ∧
    ∀ b, sb.bit img b = true → Ensures (bfree sb b) img
      (fun _ img' => (∀ c, sb.bit img' c = (decide (c ≠ b) && sb.bit img c)) ∧
        ∀ c, c ≠ sb.bblock b → img' c = img c)
      (fun _ _ => False) := by
  constructor
  · refine (balloc_allocates sb img).post ?_
    rintro r img' (⟨rfl, rfl, hall⟩ | ⟨hlt, hclear, hbefore, rfl⟩)
    · exact ⟨iff_of_true rfl hall, fun _ => rfl, fun hr => absurd rfl hr⟩
    · have hr : r ≠ 0 := by
        rintro rfl
        exact absurd (h0.symm.trans hclear) (by simp)
      have hnot : ¬ ∀ b, b < sb.size → sb.bit img b = true := fun hall =>
        absurd (hclear.symm.trans (hall r hlt)) (by simp)
      refine ⟨iff_of_false hr hnot, fun hc => absurd hc hr, fun _ => ⟨hlt, hclear, hbefore, fun b hb =>
        bit_taken hmap hclear hb, fun k => ?_, fun c hc hc' => ?_, ?_⟩⟩
      · rw [Superblock.taken, update_self]
      · rw [Superblock.taken, update_of_ne hc, update_of_ne hc']
      · refine (bfree_taken hmap hclear hlt).post ?_
        rintro _ img' rfl
        refine ⟨fun b hb => bit_congr (update_of_ne (hmap.ne hclear hb) ..), fun c hc => ?_⟩
        rw [update_of_ne hc]
  · intro b hb
    refine (bfree_ensures hb).post ?_
    rintro _ img' rfl
    refine ⟨fun c => bit_clearBit c, fun c hc => ?_⟩
    rw [update_of_ne hc]

/-- The bits of the volume are those of the bitmap, and its other blocks are the same. -/
structure Shows (sb : Superblock) (img : Nat → Block) (v : Blocks.Vol) : Prop where
  size : v.size = sb.size
  bit : ∀ b, b < sb.size → v.bit b = sb.bit img b
  blk : ∀ c, (∀ b, sb.InMap b → c ≠ sb.bblock b) → v.blk c = img c

/-- `balloc` on bytes is `balloc` on the volume. -/
theorem balloc_refines {v : Blocks.Vol} (h : Shows sb img v) (hmap : sb.Reserved img) :
    Completes (balloc sb) img
      (fun r img' => Completes Blocks.balloc v (fun r' v' => r' = r ∧ Shows sb img' v')) := by
  refine (balloc_allocates sb img).post fun r img' halloc => ?_
  unfold Blocks.balloc Blocks.ballocBy
  apply Ensures.bind_get
  rw [h.size]
  cases hfind : (List.range sb.size).find? fun b => v.bit b = false with
  | none =>
    have hall : ∀ b, b < sb.size → sb.bit img b = true := by
      intro b hb
      have hset := List.find?_eq_none.mp hfind b (List.mem_range.mpr hb)
      rw [← h.bit b hb]
      simpa using hset
    obtain ⟨rfl, rfl, -⟩ | ⟨hlt, hclear, -⟩ := halloc
    · exact .pure ⟨rfl, h⟩
    · exact absurd (hclear.symm.trans (hall r hlt)) (by simp)
  | some b =>
    obtain ⟨hclearb, hb, hfirst⟩ := List.find?_range_eq_some.mp hfind
    have hb := List.mem_range.mp hb
    have hclearb : sb.bit img b = false := (h.bit b hb).symm.trans (of_decide_eq_true hclearb)
    obtain ⟨-, -, hall⟩ | ⟨hlt, hclear, hbefore, rfl⟩ := halloc
    · exact absurd (hclearb.symm.trans (hall b hb)) (by simp)
    have hbr : b = r := by
      obtain hlt' | heq | hlt' := Nat.lt_trichotomy b r
      · exact absurd (hclearb.symm.trans (hbefore b hlt')) (by simp)
      · exact heq
      · have hset := hfirst r hlt'
        rw [h.bit r hlt, hclear] at hset
        exact absurd hset (by simp)
    subst hbr
    apply Ensures.bind_set
    apply Ensures.bind_modify
    refine ⟨rfl, rfl, fun c hc => ?_, fun c hc => ?_⟩
    · dsimp only
      rw [bit_taken hmap hclear (inMap_of_lt hc), update_apply, ← h.bit c hc]
      split
      · next hcb => rw [decide_eq_true hcb, Bool.true_or]
      · next hcb => rw [decide_eq_false hcb, Bool.false_or]
    · have hother : c ≠ sb.bblock b := hc b (inMap_of_lt hlt)
      dsimp only
      rw [Superblock.taken, update_apply, update_apply, update_of_ne hother, h.blk c hc]

end Balloc

/-- A file system of 16 blocks whose bitmap is in block 1, with the given byte in it. -/
def smallSuper : Superblock := ⟨16, 1⟩

def smallImage (byte : UInt8) : Nat → Block := update (fun _ _ => 0) 1 (update (fun _ => 0) 0 byte)

theorem smallImage_reserved : smallSuper.Reserved (smallImage 3) := by
  intro b hb
  have hb : b / bpb * bpb < 16 := hb
  have hbpb : bpb = 8192 := rfl
  have hblock : smallSuper.bblock b = 1 := by
    show b / bpb + 1 = 1
    rw [hbpb] at hb ⊢
    omega
  rw [hblock]
  decide

theorem bitmap_is_exact_small :
    Ensures (balloc smallSuper) (smallImage 3) (fun r img' => r = 2 ∧ smallSuper.bit img' 2 = true)
      (fun _ _ => False) := by
  have hrun : Ensures (balloc smallSuper) (smallImage 3) (fun r _ => r = 2) (fun _ _ => False) := by decide +kernel
  refine (hrun.and (bitmap_is_exact (by decide) smallImage_reserved).1).imp ?_ fun _ _ he => he.1
  rintro _ img' ⟨rfl, -, -, h⟩
  obtain ⟨-, -, -, hbit, -⟩ := h (by decide)
  exact ⟨rfl, (hbit 2 (inMap_of_lt (by decide))).trans (by decide)⟩

def smallVol : Blocks.Vol :=
  ⟨16, 2, 0, smallSuper.bit (smallImage 3), smallImage 3, fun _ => .zero, fun _ => ⟨0, false, .zero⟩⟩

theorem balloc_refines_small :
    Completes (balloc smallSuper) (smallImage 3) (fun r _ => r = 2 ∧
      Completes Blocks.balloc smallVol (fun r' _ => r' = 2)) := by
  have hrun : Completes (balloc smallSuper) (smallImage 3) (fun r _ => r = 2) := by decide +kernel
  have hshows : Shows smallSuper (smallImage 3) smallVol := ⟨rfl, fun _ _ => rfl, fun _ _ => rfl⟩
  refine (hrun.and (balloc_refines hshows smallImage_reserved)).imp ?_ fun _ _ he => he.1
  rintro _ img' ⟨rfl, h⟩
  exact ⟨rfl, h.post fun _ _ hr => hr.1⟩

/-- When the block of the bitmap is itself marked free, `balloc` takes it and clears the whole bitmap. -/
theorem free_bitmap_block_is_cleared :
    smallSuper.bit (smallImage 1) 0 = true ∧
      Ensures (balloc smallSuper) (smallImage 1)
        (fun r img' => r = 1 ∧ smallSuper.bit img' 1 = false ∧ smallSuper.bit img' 0 = false ∧
          Ensures (bfree smallSuper 1) img' (fun _ _ => False) (fun e _ => e = "freeing free block"))
        (fun _ _ => False) := by
  decide +kernel

end Xv6.Bitmap
