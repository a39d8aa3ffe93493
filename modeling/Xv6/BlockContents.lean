import Xv6.BlockReads
import Mathlib.Order.Interval.Finset.Nat

namespace Xv6.Blocks

open Xv6.Lib Xv6.Lib.Words Function
open Xv6.Inodes (FileType bsize)
open Xv6.LogSystem (memmove copyin copyinLoop)

variable {v w u : Vol} {i j k b n off tot : Nat} {data : Nat → UInt8} {E : String → Vol → Prop}

def Vol.Has (v : Vol) (j k : Nat) (c : UInt8) : Prop :=
  ∃ b, v.ptr (j, place (k / bsize)) = some b ∧ v.blk b (k % bsize) = c

/-- The byte at index `k` of the source of a write, if it can be read. -/
def Src.byte : Src → Nat → Option UInt8
  | .kernel bytes, k => some (bytes k)
  | .user pages va, k => (pages (pgRoundDown (va + k))).map fun page => page ((va + k) % pgsize)

/-- The first `n` bytes of the source can be read, and are those of `data`. -/
def Src.Gives (src : Src) (n : Nat) (data : Nat → UInt8) : Prop :=
  ∀ k, k < n → src.byte k = some (data k)

theorem memmove_zero (x : Block) (off : Nat) (src : Nat → UInt8) : memmove x off src 0 = x := by
  funext j
  exact if_neg (by omega)

theorem memmove_append (x : Block) (off : Nat) {src : Nat → UInt8} (m : Nat)
    (h : ∀ k, k < n → src k = data k) :
    memmove (memmove x off src n) (off + n) (fun k => data (n + k)) m = memmove x off data (n + m) := by
  funext j
  simp only [memmove]
  by_cases hlow : off ≤ j ∧ j < off + n
  · rw [if_neg (by omega), if_pos hlow, if_pos (by omega), h _ (by omega)]
  · by_cases hhigh : off + n ≤ j ∧ j < off + n + m
    · rw [if_pos hhigh, if_pos (by omega)]
      congr 1
      omega
    · rw [if_neg hhigh, if_neg hlow, if_neg (by omega)]

theorem pgRoundDown_add {va k : Nat} (hk : k < pgsize - (va - pgRoundDown va)) :
    pgRoundDown (va + k) = pgRoundDown va ∧ (va + k) % pgsize = va - pgRoundDown va + k := by
  unfold pgRoundDown pgsize at hk ⊢
  omega

/-- The first `n` bytes have their pages, and byte `n` has none unless `n` bytes are all. -/
theorem copyinLoop_eq {pages : Nat → Option (Nat → UInt8)} (rounds : Nat) (x : Block) (off va len n : Nat)
    (data : Nat → UInt8) (hr : len ≤ rounds) (hn : n ≤ len)
    (h : ∀ k, k < n → (pages (pgRoundDown (va + k))).map (fun page => page ((va + k) % pgsize)) = some (data k))
    (hstop : n < len → pages (pgRoundDown (va + n)) = none) :
    copyinLoop pages rounds x off va len = (memmove x off data n, decide (n = len)) := by
  induction rounds generalizing x off va len n data with
  | zero =>
    obtain ⟨rfl, rfl⟩ : n = 0 ∧ len = 0 := by omega
    rw [copyinLoop, memmove_zero, decide_eq_true rfl]
  | succ rounds ih =>
    rw [copyinLoop]
    by_cases hlen : len = 0
    · obtain ⟨rfl, rfl⟩ : n = 0 ∧ len = 0 := by omega
      rw [if_pos rfl, memmove_zero, decide_eq_true rfl]
    · rw [if_neg hlen]
      have hpos : 0 < pgsize - (va - pgRoundDown va) := by
        unfold pgRoundDown pgsize
        omega
      cases hpage : pages (pgRoundDown va) with
      | none =>
        have hzero : n = 0 := by
          by_contra hne
          have h0 := h 0 (Nat.pos_of_ne_zero hne)
          rw [(pgRoundDown_add hpos).1, hpage] at h0
          cases h0
        simp only [hpage]
        rw [hzero, memmove_zero, decide_eq_false (Ne.symm hlen)]
      | some page =>
        obtain ⟨c, hc⟩ : ∃ c, c = min (pgsize - (va - pgRoundDown va)) len := ⟨_, rfl⟩
        have hcn : c ≤ n := by
          by_contra hlt
          have hno := hstop (by omega)
          rw [(@pgRoundDown_add va n (by omega)).1, hpage] at hno
          cases hno
        have hbyte : ∀ k, k < c → page (va - pgRoundDown va + k) = data k := by
          intro k hk
          have hk' := h k (by omega)
          obtain ⟨hd, hm⟩ := @pgRoundDown_add va k (by omega)
          rw [hd, hpage, hm] at hk'
          exact Option.some.inj hk'
        have hva : ∀ k, k < len - c → pgRoundDown va + pgsize + k = va + (c + k) := by
          have hle : pgRoundDown va ≤ va := Nat.div_mul_le_self va pgsize
          omega
        simp only [hpage, ← hc]
        rw [ih _ _ _ _ (n - c) (fun k => data (c + k)) (by omega) (by omega) (fun k hk => ?_) fun hlt => ?_,
          memmove_append x off _ hbyte, Nat.add_sub_of_le hcn]
        · refine Prod.ext rfl (decide_eq_decide.mpr ?_)
          omega
        · rw [hva k (by omega)]
          exact h (c + k) (by omega)
        · rw [hva (n - c) hlt, Nat.add_sub_of_le hcn]
          exact hstop (by omega)

theorem Src.Gives.copyin {src : Src} (h : src.Gives n data) (x : Block) (off tot m : Nat) (hm : tot + m ≤ n) :
    eitherCopyin src x off tot m = (memmove x off (fun j => data (tot + j)) m, true) := by
  cases src with
  | kernel bytes =>
    refine Prod.ext (funext fun j => ?_) rfl
    by_cases hj : off ≤ j ∧ j < off + m
    · refine (if_pos hj).trans ((Option.some.inj (h (tot + (j - off)) (by omega))).trans ?_)
      exact (if_pos hj).symm
    · exact (if_neg hj).trans (if_neg hj).symm
  | user pages va =>
    rw [eitherCopyin, LogSystem.copyin, copyinLoop_eq m x off (va + tot) m m (fun j => data (tot + j)) le_rfl le_rfl
      (fun k hk => ?_) fun hlt => absurd hlt (lt_irrefl m), decide_eq_true rfl]
    rw [Nat.add_assoc]
    exact h (tot + k) (by omega)

def places (off n : Nat) : Finset Place :=
  (Finset.Ico off (off + n)).image (fun k => place (k / bsize)) ∪
    ((Finset.Ico off (off + n)).filter fun k => ndirect ≤ k / bsize).image fun _ => .addr ndirect

theorem mem_places {p : Place} :
    p ∈ places off n ↔ ∃ k, off ≤ k ∧ k < off + n ∧ Needed (k / bsize) p := by
  simp only [places, Finset.mem_union, Finset.mem_image, Finset.mem_filter, Finset.mem_Ico, Needed]
  constructor
  · rintro (⟨k, hk, rfl⟩ | ⟨k, hk, rfl⟩)
    · exact ⟨k, hk.1, hk.2, .inl rfl⟩
    · exact ⟨k, hk.1.1, hk.1.2, .inr ⟨hk.2, rfl⟩⟩
  · rintro ⟨k, hlo, hhi, rfl | ⟨hk, rfl⟩⟩
    · exact .inl ⟨k, ⟨hlo, hhi⟩, rfl⟩
    · exact .inr ⟨k, ⟨⟨hlo, hhi⟩, hk⟩, rfl⟩

/-- The bytes `lo` to `hi` of the file `i` are those of `data`; only places `P` of `i` got blocks. -/
structure Written (i o : Nat) (data : Nat → UInt8) (lo hi : Nat) (P : Place → Prop) (v w : Vol) : Prop
    extends Grown i v w where
  filled : ∀ x, w.ptr x ≠ v.ptr x → x.1 = i ∧ P x.2 ∧ ∃ b, b < v.size ∧ w.ptr x = some b
  inside : ∀ k, lo ≤ k → k < hi → w.Has i k (data (k - o))
  outside : ∀ j k c, v.Has j k c → j ≠ i ∨ k < lo ∨ hi ≤ k → w.Has j k c

def Vol.putBlk (v : Vol) (a : Nat) (x : Block) : Vol := { v with blk := update v.blk a x }

theorem Sound.putBlk (h : Sound (some i) v) {bn a : Nat} (ha : v.ptr (i, place bn) = some a)
    (x : Block) : Sound (some i) (v.putBlk a x) ∧ (v.putBlk a x).ptr = v.ptr := by
  have hsame : (v.putBlk a x).ptr = v.ptr := h.ptr_write bn ha x
  have hlike : Alike i v (v.putBlk a x) := Alike.of_blocks i v v.bit _
  refine ⟨hlike.sound h ?_ (fun j q _ hq => hsame ▸ hq), hsame⟩
  unfold Vol.BlocksOwned
  rw [hsame]
  exact h.owned

namespace Written

variable {o lo mid hi : Nat} {P : Place → Prop}

theorem trans (h : Written i o data lo mid P v w) (h' : Written i o data mid hi P w u)
    (hle : lo ≤ mid ∧ mid ≤ hi) : Written i o data lo hi P v u where
  toGrown := h.toGrown.trans h'.toGrown
  filled x hx := by
    by_cases hw : w.ptr x = v.ptr x
    · exact h.size ▸ h'.filled x (hw ▸ hx)
    · obtain ⟨hi, hp, b, hlt, hb⟩ := h.filled x hw
      exact ⟨hi, hp, b, hlt, h'.ptr x b hb⟩
  inside k hlo hhi := by
    by_cases hk : k < mid
    · exact h'.outside i k _ (h.inside k hlo hk) (.inr (.inl hk))
    · exact h'.inside k (by omega) hhi
  outside j k c hc hk := by
    refine h'.outside j k c (h.outside j k c hc ?_) ?_ <;> omega

theorem of_extends (h : Extends i P v w) (o : Nat) (data : Nat → UInt8) (lo : Nat) :
    Written i o data lo lo P v w := by
  refine ⟨h.toGrown, h.filled, fun k hlo hhi => absurd hhi (by omega), ?_⟩
  rintro j k c ⟨b, hb, hc⟩ -
  refine ⟨b, h.ptr _ b hb, ?_⟩
  rw [h.blk _ b hb fun he => place_ne _ (Prod.mk.inj he).2, hc]

theorem of_block (h : Sound (some i) v) {a m : Nat} (ha : v.ptr (i, place (lo / bsize)) = some a)
    (hm : m ≤ bsize - lo % bsize) (ho : o ≤ lo) (data : Nat → UInt8) (P : Place → Prop) :
    Written i o data lo (lo + m) P v
      (v.putBlk a (memmove (v.blk a) (lo % bsize) (fun j => data (lo - o + j)) m)) := by
  have hbs : bsize = 1024 := rfl
  obtain ⟨-, hptr⟩ := h.putBlk ha (memmove (v.blk a) (lo % bsize) (fun j => data (lo - o + j)) m)
  have hg : Grown i v (v.putBlk a (memmove (v.blk a) (lo % bsize) (fun j => data (lo - o + j)) m)) :=
    ⟨Alike.of_blocks i v v.bit _, fun x b hx => hptr ▸ hx⟩
  refine ⟨hg, fun x hx => absurd (congrFun hptr x) hx, ?_, ?_⟩
  · intro k hlo hhi
    have hdiv : k / bsize = lo / bsize := by
      rw [hbs] at hm ⊢
      omega
    have hmod : k % bsize = lo % bsize + (k - lo) := by
      rw [hbs] at hm ⊢
      omega
    refine ⟨a, hdiv ▸ hg.ptr _ a ha, ?_⟩
    rw [hmod]
    simp only [Vol.putBlk, update_self, memmove]
    rw [if_pos (by omega)]
    congr 1
    omega
  · rintro j k c ⟨b, hb, hc⟩ hk
    refine ⟨b, hg.ptr _ b hb, ?_⟩
    obtain rfl | hba := eq_or_ne b a
    · obtain ⟨hji, hplace⟩ := Prod.mk.inj (h.owned.once hb ha)
      have hdiv := place_inj hplace
      simp only [Vol.putBlk, update_self, memmove]
      rw [if_neg, hc]
      rw [hbs] at hdiv hm ⊢
      omega
    · simp only [Vol.putBlk, update_of_ne hba, hc]

end Written

theorem writeLoop_written {src : Src} {o : Nat} (hsrc : src.Gives n data) (rounds tot : Nat)
    (h : Sound (some i) v) (ha : v.Active i) (ht : (v.ip i).type ≠ .free)
    (hmax : o + n ≤ maxfile * bsize) (hr : n - tot ≤ rounds) (htot : tot ≤ n) :
    Ensures (writeLoop i src n rounds (o + tot) tot) v
      (fun r w => r.1 = o + r.2 ∧ tot ≤ r.2 ∧ r.2 ≤ n ∧
        Written i o data (o + tot) r.1 (· ∈ places o n) v w ∧
        (r.2 < n → w.Exhausted ∧ w.ptr (i, place (r.1 / bsize)) = none ∧
          (r.2 = tot ∨ r.1 % bsize = 0))) E := by
  induction rounds generalizing tot v with
  | zero =>
    obtain rfl : tot = n := by omega
    refine .pure ⟨rfl, le_rfl, le_rfl, ?_, fun hlt => absurd hlt (lt_irrefl _)⟩
    exact .of_extends (Extends.refl i _ v) o data _
  | succ rounds ih =>
    have hbs : bsize = 1024 := rfl
    unfold writeLoop writeLoopBy
    split
    · next hlt =>
      have hbn : (o + tot) / bsize < maxfile := by
        rw [Nat.div_lt_iff_lt_mul (by decide)]
        omega
      refine (bmap_ensures h ha ht hbn).seq ?_
      rintro a w ⟨hw, hx, hptr, hzero⟩
      have hxw : Written i o data (o + tot) (o + tot) (· ∈ places o n) v w :=
        .of_extends (hx.mono fun p hp => mem_places.mpr ⟨o + tot, by omega, by omega, hp⟩) o data _
      split
      · next h0 =>
        obtain ⟨hnone, hfull⟩ := hzero h0
        exact .pure ⟨rfl, le_rfl, htot, hxw, fun _ => ⟨hfull, hnone, .inl rfl⟩⟩
      · next hne =>
        apply Ensures.bind_get
        dsimp only
        apply Ensures.bind_set
        obtain ⟨m, hm⟩ : ∃ m, m = min (n - tot) (bsize - (o + tot) % bsize) := ⟨_, rfl⟩
        rw [← hm, hsrc.copyin _ _ _ _ (by omega)]
        simp only [if_true]
        have hblock := Written.of_block hw (hptr hne) (m := m) (by omega) (Nat.le_add_right o tot) data
          (· ∈ places o n)
        rw [Nat.add_sub_cancel_left] at hblock
        have hvu := hxw.trans hblock ⟨le_rfl, Nat.le_add_right _ _⟩
        have hau := (hvu.active_iff i).mpr ha
        have htu := hvu.fields.1 ▸ ht
        have hnext := ih (tot + m) (hw.putBlk (hptr hne) _).1 hau htu (by rw [hbs] at hm; omega) (by omega)
        rw [← Nat.add_assoc] at hnext
        refine hnext.post ?_
        rintro r x ⟨hr1, hr2, hr3, hwr, hstop⟩
        refine ⟨hr1, by omega, hr3, hvu.trans hwr (by omega), fun hlt => ?_⟩
        obtain ⟨hfull, hnone, hend⟩ := hstop hlt
        refine ⟨hfull, hnone, .inr ?_⟩
        rw [hbs] at hend hm ⊢
        omega
    · next hge =>
      obtain rfl : tot = n := by omega
      refine .pure ⟨rfl, le_rfl, le_rfl, ?_, fun hlt => absurd hlt (lt_irrefl _)⟩
      exact .of_extends (Extends.refl i _ v) o data _

theorem Vol.cur_iupdate (ha : v.Active i) (j : Nat) :
    { v with dinode := update v.dinode i (v.ip i) }.cur j = v.cur j := by
  obtain rfl | hj := eq_or_ne j i
  · exact (if_pos ha).trans (if_pos ha).symm
  · by_cases haj : v.Active j
    · exact (if_pos haj).trans (if_pos haj).symm
    · exact (if_neg haj).trans ((update_of_ne hj _ _).trans (if_neg haj).symm)

structure Rewritten (i off n tot : Nat) (data : Nat → UInt8) (v w : Vol) : Prop where
  bound : w.size = v.size ∧ w.nmeta = v.nmeta
  ptr : ∀ x b, v.ptr x = some b → w.ptr x = some b
  filled : ∀ x, w.ptr x ≠ v.ptr x →
    x.1 = i ∧ x.2 ∈ places off n ∧ ∃ b, b < v.size ∧ w.ptr x = some b
  inside : ∀ k, off ≤ k → k < off + tot → w.Has i k (data (k - off))
  outside : ∀ j k c, v.Has j k c → j ≠ i ∨ k < off ∨ off + tot ≤ k → w.Has j k c
  fields : (w.ip i).type = (v.ip i).type ∧ (w.ip i).nlink = (v.ip i).nlink ∧
    (w.ip i).size = max (v.ip i).size (off + tot)
  others : ∀ j, j ≠ i → w.itable j = v.itable j ∧ w.dinode j = v.dinode j

def Vol.grow (v : Vol) (i off : Nat) : Vol :=
  if (v.ip i).size < off then v.setIp i { v.ip i with size := off } else v

theorem Vol.grow_same (v : Vol) (i off : Nat) :
    (v.grow i off).ptr = v.ptr ∧ (v.grow i off).blk = v.blk ∧ (v.grow i off).dinode = v.dinode ∧
      (v.grow i off).size = v.size ∧ (v.grow i off).nmeta = v.nmeta ∧ (v.grow i off).bit = v.bit := by
  unfold Vol.grow
  split
  · exact ⟨Vol.ptr_setFields rfl rfl, rfl, rfl, rfl, rfl, rfl⟩
  · exact ⟨rfl, rfl, rfl, rfl, rfl, rfl⟩

theorem Vol.grow_entries (v : Vol) (i off : Nat) :
    (∀ j, (v.grow i off).Active j ↔ v.Active j) ∧ ∀ j, j ≠ i → (v.grow i off).itable j = v.itable j := by
  unfold Vol.grow
  split
  · exact ⟨fun j => v.setIp_active i j _, fun j hj => Vol.setIp_itable hj _⟩
  · exact ⟨fun _ => Iff.rfl, fun _ _ => rfl⟩

theorem Vol.grow_ip (v : Vol) (i off : Nat) :
    ((v.grow i off).ip i).type = (v.ip i).type ∧ ((v.grow i off).ip i).nlink = (v.ip i).nlink ∧
      ((v.grow i off).ip i).size = max (v.ip i).size off := by
  unfold Vol.grow
  split
  · next h =>
    rw [Vol.setIp_ip_self]
    exact ⟨rfl, rfl, (max_eq_right (Nat.le_of_lt h)).symm⟩
  · next h => exact ⟨rfl, rfl, (max_eq_left (Nat.le_of_not_lt h)).symm⟩

def Vol.stored (v : Vol) (i : Nat) : Vol :=
  { v with dinode := update v.dinode i (v.ip i) }

theorem Vol.ptr_stored (ha : v.Active i) : (v.stored i).ptr = v.ptr := by
  funext x
  exact congrArg (fun n => n.ptr v.blk x.2) (Vol.cur_iupdate ha x.1)

theorem Written.settle (h : Written i off data off (off + tot) (· ∈ places off n) v w) (ha : v.Active i) :
    Rewritten i off n tot data v ((w.grow i (off + tot)).stored i) := by
  obtain ⟨hptr, hblk, hdin, hsize, hmeta, -⟩ := w.grow_same i (off + tot)
  obtain ⟨hact, htab⟩ := w.grow_entries i (off + tot)
  obtain ⟨htype, hlink, hlen⟩ := w.grow_ip i (off + tot)
  have hau : (w.grow i (off + tot)).Active i := (hact i).mpr ((h.active_iff i).mpr ha)
  have hp : ((w.grow i (off + tot)).stored i).ptr = w.ptr := (Vol.ptr_stored hau).trans hptr
  have hhas : ∀ j k c, w.Has j k c → ((w.grow i (off + tot)).stored i).Has j k c := by
    rintro j k c ⟨b, hb, hc⟩
    exact ⟨b, hp ▸ hb, (congrFun (congrFun hblk b) _).trans hc⟩
  refine ⟨⟨hsize.trans h.size, hmeta.trans h.nmeta⟩, fun x b hx => hp ▸ h.ptr x b hx,
    fun x hx => hp ▸ h.filled x (hp ▸ hx), fun k hlo hhi => hhas _ _ _ (h.inside k hlo hhi),
    fun j k c hc hk => hhas _ _ _ (h.outside j k c hc hk), ?_, fun j hj => ⟨?_, ?_⟩⟩
  · exact ⟨htype.trans h.fields.1, hlink.trans h.fields.2.1, h.fields.2.2 ▸ hlen⟩
  · exact (htab j hj).trans (h.others j hj)
  · exact (update_of_ne hj _ _).trans (congrFun (hdin.trans h.dinode) j)

theorem writei_written {src : Src} {off n : UInt32} (hsrc : src.Gives n.toNat data) (h : Sound none v)
    (ha : v.Active i) (hoff : off.toNat ≤ (v.ip i).size) (hmax : off.toNat + n.toNat ≤ maxfile * bsize) :
    Ensures (writei i src off n) v (fun r w => ∃ tot : Nat, r = tot ∧ tot ≤ n.toNat ∧
      Rewritten i off.toNat n.toNat tot data v w ∧
      (tot < n.toNat → w.Exhausted ∧ w.ptr (i, place ((off.toNat + tot) / bsize)) = none ∧
        (tot = 0 ∨ (off.toNat + tot) % bsize = 0))) E := by
  have hcap : maxfile * bsize < 2 ^ 32 := by decide
  have ht : (v.ip i).type ≠ .free := h.live i (Option.some_ne_none _) ha
  have hsum : (off + n).toNat = off.toNat + n.toNat := by
    rw [UInt32.toNat_add]
    omega
  have hfits : ¬((v.ip i).size < off.toNat ∨ off + n < off) := by
    rw [UInt32.lt_iff_toNat_lt, hsum]
    omega
  unfold writei writeiBy
  apply Ensures.bind_get
  rw [if_neg hfits, if_neg (by omega)]
  refine (writeLoop_written hsrc n.toNat 0 (h.relax i) ha ht hmax (by omega) (Nat.zero_le _)).seq ?_
  rintro ⟨off', tot⟩ w ⟨hend, -, hle, hw, hstop⟩
  dsimp only at hend hle hw hstop ⊢
  subst hend
  apply Ensures.bind_modify
  apply Ensures.bind_modify
  refine .pure ⟨tot, rfl, hle, Written.settle hw ha, fun hlt => ?_⟩
  obtain ⟨hfull, hnone, hrest⟩ := hstop hlt
  obtain ⟨hptr, -, -, hsize, -, hbit⟩ := w.grow_same i (off.toNat + tot)
  have hau : (w.grow i (off.toNat + tot)).Active i :=
    ((w.grow_entries i _).1 i).mpr ((hw.active_iff i).mpr ha)
  refine ⟨fun c hc => ?_, ?_, hrest⟩
  · exact (congrFun hbit c).trans (hfull c (hsize ▸ hc))
  · exact (congrFun ((Vol.ptr_stored hau).trans hptr) _).trans hnone

def Vol.freeBlocks (v : Vol) : Finset Nat := (Finset.range v.size).filter fun b => v.bit b = false

def Vol.missing (v : Vol) (i off n : Nat) : Finset Place :=
  (places off n).filter fun p => v.ptr (i, p) = none

theorem Rewritten.freeBlocks_lt (h : Rewritten i off n tot data v w)
    (hv : v.BlocksOwned) (hw : w.BlocksOwned) (hfull : w.Exhausted) {p : Place} (hp : p ∈ places off n)
    (hnone : w.ptr (i, p) = none) : v.freeBlocks.card < (v.missing i off n).card := by
  have hpv : v.ptr (i, p) = none := by
    cases hb : v.ptr (i, p) with
    | none => rfl
    | some b =>
      rw [h.ptr _ b hb] at hnone
      cases hnone
  have hpm : p ∈ v.missing i off n := Finset.mem_filter.mpr ⟨hp, hpv⟩
  have hsub : v.freeBlocks ⊆
      ((v.missing i off n).erase p).image fun q => (w.ptr (i, q)).getD 0 := by
    intro b hb
    obtain ⟨hlt, hbit⟩ := Finset.mem_filter.mp hb
    have hunused : ¬v.bit b = true := by rw [hbit]; exact Bool.false_ne_true
    have hset : w.bit b = true := hfull b (h.bound.1 ▸ Finset.mem_range.mp hlt)
    obtain hmeta | ⟨⟨j, q⟩, hx⟩ := (hw.used_iff b).mp hset
    · exact absurd ((hv.used_iff b).mpr (.inl (h.bound.2 ▸ hmeta))) hunused
    · have hne : w.ptr (j, q) ≠ v.ptr (j, q) := by
        intro he
        exact hunused (hv.used_of_ptr (he ▸ hx))
      obtain ⟨hj, hq, -⟩ := h.filled _ hne
      obtain rfl : j = i := hj
      have hqv : v.ptr (j, q) = none := by
        cases hc : v.ptr (j, q) with
        | none => rfl
        | some c => exact absurd ((h.ptr _ c hc).trans hc.symm) hne
      have hqp : q ≠ p := by
        rintro rfl
        rw [hnone] at hx
        cases hx
      refine Finset.mem_image.mpr ⟨q, ?_, ?_⟩
      · exact Finset.mem_erase.mpr ⟨hqp, Finset.mem_filter.mpr ⟨hq, hqv⟩⟩
      · rw [hx, Option.getD_some]
  calc v.freeBlocks.card ≤ _ := Finset.card_le_card hsub
    _ ≤ ((v.missing i off n).erase p).card := Finset.card_image_le
    _ < (v.missing i off n).card := Finset.card_erase_lt_of_mem hpm

theorem Rewritten.ptr_places (h : Rewritten i off n n data v w) :
    ∀ p ∈ places off n, w.ptr (i, p) ≠ none := by
  intro p hp hnone
  obtain ⟨k, hlo, hhi, hneed⟩ := mem_places.mp hp
  obtain ⟨b, hb, -⟩ := h.inside k hlo hhi
  rcases hneed with rfl | ⟨hge, rfl⟩
  · rw [hnone] at hb
    cases hb
  · rw [place_indirect (Nat.not_lt.mpr hge), ptr_entry_none hnone] at hb
    cases hb

theorem Rewritten.card_le_freeBlocks (h : Rewritten i off n n data v w)
    (hv : v.BlocksOwned) (hw : w.BlocksOwned) :
    (v.missing i off n).card ≤ v.freeBlocks.card := by
  have hgot : ∀ p ∈ v.missing i off n, ∃ b, w.ptr (i, p) = some b ∧ b ∈ v.freeBlocks := by
    intro p hp
    obtain ⟨hpl, hnone⟩ := Finset.mem_filter.mp hp
    obtain ⟨-, -, b, hlt, hb⟩ := h.filled (i, p) (hnone.symm ▸ h.ptr_places p hpl)
    refine ⟨b, hb, Finset.mem_filter.mpr ⟨Finset.mem_range.mpr hlt, ?_⟩⟩
    by_contra hbit
    obtain hmeta | ⟨x, hx⟩ := (hv.used_iff b).mp (Bool.eq_true_of_not_eq_false hbit)
    · exact hw.apart hb (h.bound.2.symm ▸ hmeta)
    · obtain rfl := hw.once (h.ptr x b hx) hb
      rw [hnone] at hx
      cases hx
  refine Finset.card_le_card_of_injOn (fun p => (w.ptr (i, p)).getD 0) ?_ ?_
  · intro p hp
    obtain ⟨b, hb, hfree⟩ := hgot p hp
    simpa only [hb, Option.getD_some, Finset.mem_coe] using hfree
  · intro p hp q hq he
    obtain ⟨b, hb, -⟩ := hgot p hp
    obtain ⟨c, hc, -⟩ := hgot q hq
    simp only [hb, hc, Option.getD_some] at he
    exact (Prod.mk.inj (hw.once hb (he ▸ hc))).2

end Xv6.Blocks
