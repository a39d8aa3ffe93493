import Xv6.BlockOwner
import Xv6.BlockTrunc

namespace Xv6.Blocks

open Xv6.Lib Xv6.Lib.Words Function
open Xv6.Inodes (FileType bsize)

variable {v w u : Vol} {d : Option Nat} {i j k b bn ind m : Nat} {n : Dinode} {p : Place}
  {E : String → Vol → Prop}

theorem word_zero (k : Nat) : word (fun _ => 0) k = 0 := rfl

theorem word_put_self (x : Block) (k : Nat) (hb : b < 2 ^ 32) : word (putLE x (4 * k) b 4) k = b :=
  getLE_putLE x (4 * k) b 4 (by omega)

theorem word_put_of_ne (x : Block) {k : Nat} (hm : m ≠ k) :
    word (putLE x (4 * k) b 4) m = word x m :=
  getLE_putLE_apart x (4 * k) b 4 (4 * m) 4 (by omega)

def Vol.taken (v : Vol) (b : Nat) : Vol :=
  { v with bit := update v.bit b true, blk := update v.blk b (fun _ => 0) }

theorem Sound.ptr_taken (h : Sound d v) (hb : v.bit b = false) : (v.taken b).ptr = v.ptr := by
  have hblk : ∀ j c, v.ptr (j, .addr ndirect) = some c →
      update v.blk b (fun _ => 0) c = v.blk c := by
    intro j c hc
    refine update_of_ne ?_ _ _
    rintro rfl
    exact (h.fresh hb).2.2 _ hc
  exact Vol.ptr_blk hblk

def Vol.given (v : Vol) (i k b : Nat) : Vol :=
  (v.taken b).setIp i { v.ip i with addrs := update (v.ip i).addrs k b }

theorem Sound.ptr_given (h : Sound d v) (ha : v.Active i) (ht : (v.ip i).type ≠ .free) (hk : k ≤ ndirect)
    (h0 : (v.ip i).addrs k = 0) (hbit : v.bit b = false) :
    (v.given i k b).ptr = update v.ptr (i, .addr k) (some b) := by
  have hptr := h.ptr_taken hbit
  refine (Vol.ptr_setAddr (v := v.taken b) ha ht hk ?_).trans (by rw [hptr, if_neg (h.fresh hbit).2.1])
  intro hkn m
  have hent : v.ptr (i, .entry m) = none := by
    rw [Vol.ptr_active ha]
    simp [Dinode.ptr, ← hkn, h0]
  exact ⟨by rw [hptr, hent], fun _ => by simp [Vol.taken, word_zero]⟩

def Vol.Exhausted (v : Vol) : Prop := ∀ c, c < v.size → v.bit c = true

structure Extends (i : Nat) (P : Place → Prop) (v w : Vol) : Prop extends Grown i v w where
  filled : ∀ x, w.ptr x ≠ v.ptr x → x.1 = i ∧ P x.2 ∧ ∃ b, b < v.size ∧ w.ptr x = some b
  blk : ∀ x b, v.ptr x = some b → x ≠ (i, .addr ndirect) → w.blk b = v.blk b

namespace Extends

variable {P P' : Place → Prop}

theorem refl (i : Nat) (P : Place → Prop) (v : Vol) : Extends i P v v :=
  ⟨Grown.refl i v, fun _ h => absurd rfl h, fun _ _ _ _ => rfl⟩

theorem mono (h : Extends i P v w) (hP : ∀ p, P p → P' p) : Extends i P' v w :=
  ⟨h.toGrown, fun x hx => ⟨(h.filled x hx).1, hP _ (h.filled x hx).2.1, (h.filled x hx).2.2⟩, h.blk⟩

theorem trans (h : Extends i P v w) (h' : Extends i P w u) : Extends i P v u where
  toGrown := h.toGrown.trans h'.toGrown
  filled x hx := by
    by_cases hw : w.ptr x = v.ptr x
    · exact h.size ▸ h'.filled x (hw ▸ hx)
    · obtain ⟨hi, hp, b, hlt, hb⟩ := h.filled x hw
      exact ⟨hi, hp, b, hlt, h'.ptr x b hb⟩
  blk x b hb hx := (h'.blk x b (h.ptr x b hb) hx).trans (h.blk x b hb hx)

theorem of_update (h : Grown i v w) (hb : b < v.size) (hptr : w.ptr = update v.ptr (i, p) (some b))
    (hblk : ∀ x c, v.ptr x = some c → x ≠ (i, .addr ndirect) → w.blk c = v.blk c) :
    Extends i (· = p) v w := by
  refine ⟨h, fun x hx => ?_, hblk⟩
  by_cases hxp : x = (i, p)
  · refine ⟨congrArg Prod.fst hxp, congrArg Prod.snd hxp, b, hb, ?_⟩
    rw [hptr, hxp, update_self]
  · rw [hptr, update_of_ne hxp] at hx
    exact absurd rfl hx

end Extends

section Allocation

variable {E : String → Vol → Prop}

theorem addrBlock_ensures (h : Sound (some i) v) (ha : v.Active i) (ht : (v.ip i).type ≠ .free)
    (hk : k ≤ ndirect) :
    Ensures (addrBlock i k) v (fun a w => Sound (some i) w ∧ Extends i (· = .addr k) v w ∧
      (a ≠ 0 → w.ptr (i, .addr k) = some a) ∧
      (a = 0 → w.ptr (i, .addr k) = none ∧ w.Exhausted)) E := by
  unfold addrBlock addrBlockBy
  apply Ensures.bind_get
  split
  · next h0 =>
    have hnone : v.ptr (i, .addr k) = none := by
      rw [Vol.ptr_active ha, Dinode.ptr_addr_zero h0]
    refine (balloc_ensures v).seq ?_
    rintro b w (⟨rfl, rfl, hfull⟩ | ⟨hlt, hbit, rfl⟩)
    · exact ⟨h, Extends.refl i _ w, fun hne => absurd rfl hne, fun _ => ⟨hnone, hfull⟩⟩
    · obtain ⟨-, hb0, hfresh⟩ := h.fresh hbit
      rw [if_neg hb0]
      have hlike : Alike i v (v.given i k b) :=
        (Alike.of_blocks i v _ _).trans (Vol.alike_setAddrs _ i _)
      have hptr := h.ptr_given ha ht hk h0 hbit
      obtain ⟨hs, hg, hb⟩ := hlike.fill h hnone hbit rfl hptr
      refine ⟨hs, Extends.of_update hg hlt hptr ?_, fun _ => hb, fun h0 => absurd h0 hb0⟩
      intro x c hc _
      have hcb : c ≠ b := fun he => hfresh x (he ▸ hc)
      exact update_of_ne hcb _ _
  · next h0 =>
    refine ⟨h, Extends.refl i _ v, fun _ => ?_, fun hz => absurd hz h0⟩
    rw [Vol.ptr_active ha, Dinode.ptr_addr ht hk h0]

end Allocation

theorem ptr_entry_of (hind : v.ptr (i, .addr ndirect) = some b) (hk : k < nindirect) :
    v.ptr (i, .entry k) = if word (v.blk b) k ≠ 0 then some (word (v.blk b) k) else none := by
  have hc : (v.cur i).type ≠ .free ∧ (v.cur i).addrs ndirect ≠ 0 ∧ (v.cur i).addrs ndirect = b := by
    simp only [Vol.ptr, Dinode.ptr] at hind
    split at hind
    · next hx => exact ⟨hx.1, hx.2.2, Option.some.inj hind⟩
    · cases hind
  have hb : b ≠ 0 := hc.2.2 ▸ hc.2.1
  simp [Vol.ptr, Dinode.ptr, hc.1, hc.2.2, hk, hb]

theorem Vol.ptr_setEntry (hind : v.ptr (i, .addr ndirect) = some ind)
    (honly : ∀ j, v.ptr (j, .addr ndirect) = some ind → j = i)
    (hk : k < nindirect) (hb : b < 2 ^ 32) (hb0 : b ≠ 0) :
    { v with blk := update v.blk ind (putLE (v.blk ind) (4 * k) b 4) }.ptr =
      update v.ptr (i, .entry k) (some b) := by
  funext ⟨j, p⟩
  obtain rfl | hj := eq_or_ne j i
  · cases p with
    | addr m =>
      rw [update_of_ne (by simp)]
      rfl
    | entry m =>
      by_cases hm : m < nindirect
      · have hind' : { v with blk := update v.blk ind (putLE (v.blk ind) (4 * k) b 4) }.ptr
            (j, .addr ndirect) = some ind := hind
        rw [ptr_entry_of hind' hm]
        simp only [update_self]
        obtain rfl | hmk := eq_or_ne m k
        · rw [update_self, word_put_self _ _ hb, if_pos hb0]
        · rw [update_of_ne (by simpa using hmk), word_put_of_ne _ hmk, ptr_entry_of hind hm]
      · have hne : m ≠ k := fun he => hm (he ▸ hk)
        rw [update_of_ne (by simpa using hne)]
        simp [Vol.ptr, Dinode.ptr, hm]
  · rw [update_of_ne (by simp [hj])]
    have hx : (v.cur j).ptr (update v.blk ind (putLE (v.blk ind) (4 * k) b 4)) =
        (v.cur j).ptr v.blk := by
      refine Dinode.ptr_blk (fun c hc => update_of_ne ?_ _ _)
      rintro rfl
      exact hj (honly j hc)
    exact congrFun hx p

theorem entryBlock_ensures (h : Sound (some i) v)
    (hind : v.ptr (i, .addr ndirect) = some ind) (hk : k < nindirect) :
    Ensures (entryBlock ind k) v (fun a w => Sound (some i) w ∧ Extends i (· = .entry k) v w ∧
      (a ≠ 0 → w.ptr (i, .entry k) = some a) ∧
      (a = 0 → w.ptr (i, .entry k) = none ∧ w.Exhausted)) E := by
  unfold entryBlock entryBlockBy
  apply Ensures.bind_get
  split
  · next h0 =>
    have hnone : v.ptr (i, .entry k) = none := by
      rw [ptr_entry_of hind hk, if_neg (not_not.mpr h0)]
    refine (balloc_ensures v).seq ?_
    rintro b w (⟨rfl, rfl, hfull⟩ | ⟨hlt, hbit, rfl⟩)
    · exact ⟨h, Extends.refl i _ w, fun hne => absurd rfl hne, fun _ => ⟨hnone, hfull⟩⟩
    · obtain ⟨-, hb0, hfresh⟩ := h.fresh hbit
      have hptr := h.ptr_taken hbit
      have hset : { v.taken b with
          blk := update (v.taken b).blk ind (putLE ((v.taken b).blk ind) (4 * k) b 4) }.ptr =
          update v.ptr (i, .entry k) (some b) := by
        refine (Vol.ptr_setEntry (v := v.taken b) (hptr ▸ hind) ?_ hk ?_ hb0).trans (by rw [hptr])
        · intro j hj
          exact (Prod.mk.inj (h.owned.once (hptr ▸ hj) hind)).1
        · exact lt_of_lt_of_le hlt h.room
      have hlike : Alike i v { v.taken b with
          blk := update (v.taken b).blk ind (putLE ((v.taken b).blk ind) (4 * k) b 4) } :=
        Alike.of_blocks i v _ _
      obtain ⟨hs, hg, hb⟩ := hlike.fill h hnone hbit rfl hset
      rw [if_neg hb0]
      refine ⟨hs, Extends.of_update hg hlt hset ?_, fun _ => hb, fun h0 => absurd h0 hb0⟩
      intro x c hc hx
      have hci : c ≠ ind := fun he => hx (h.owned.once hc (he ▸ hind))
      have hcb : c ≠ b := fun he => hfresh x (he ▸ hc)
      exact (update_of_ne hci _ _).trans (update_of_ne hcb _ _)
  · next h0 =>
    refine ⟨h, Extends.refl i _ v, fun _ => ?_, fun hz => absurd hz h0⟩
    rw [ptr_entry_of hind hk, if_pos h0]

theorem place_direct (hbn : k < ndirect) : place k = .addr k := if_pos hbn

theorem place_indirect (hbn : ¬ k < ndirect) : place k = .entry (k - ndirect) := if_neg hbn

theorem place_eq_addr (hk : k < ndirect) : place bn = .addr k ↔ bn = k := by
  unfold place
  split_ifs with hbn
  · simp
  · simp only [false_iff]
    omega

theorem place_eq_entry : place bn = .entry k ↔ bn = ndirect + k := by
  unfold place
  split_ifs with hbn
  · simp only [false_iff]
    omega
  · simp only [Place.entry.injEq]
    omega

theorem place_inj {n : Nat} (h : place m = place n) : m = n := by
  unfold place at h
  split_ifs at h <;> simp at h <;> omega

def Needed (bn : Nat) (p : Place) : Prop := p = place bn ∨ (ndirect ≤ bn ∧ p = .addr ndirect)

theorem ptr_entry_none (h : v.ptr (i, .addr ndirect) = none) (m : Nat) : v.ptr (i, .entry m) = none := by
  simp only [Vol.ptr, Dinode.ptr] at h ⊢
  split at h
  · cases h
  · next hno => exact if_neg fun hx => hno ⟨hx.1, le_rfl, hx.2.1⟩

theorem bmap_ensures (h : Sound (some i) v) (ha : v.Active i)
    (ht : (v.ip i).type ≠ .free) (hbn : bn < maxfile) :
    Ensures (bmap i bn) v (fun a w => Sound (some i) w ∧ Extends i (Needed bn) v w ∧
      (a ≠ 0 → w.ptr (i, place bn) = some a) ∧
      (a = 0 → w.ptr (i, place bn) = none ∧ w.Exhausted)) E := by
  unfold bmap bmapBy
  split
  · next hlt =>
    rw [place_direct hlt]
    refine (addrBlock_ensures h ha ht (by omega)).post ?_
    rintro a w ⟨hw, hx, hptr⟩
    exact ⟨hw, hx.mono fun p hp => .inl (hp.trans (place_direct hlt).symm), hptr⟩
  · next hge =>
    have hind : bn - ndirect < nindirect := by
      unfold maxfile at hbn
      omega
    rw [if_pos hind, place_indirect hge]
    refine (addrBlock_ensures h ha ht le_rfl).seq ?_
    rintro ind w ⟨hw, hx, hptr, hzero⟩
    have hxw : Extends i (Needed bn) v w := hx.mono fun p hp => .inr ⟨by omega, hp⟩
    split
    · next h0 =>
      obtain ⟨hnone, hfull⟩ := hzero h0
      exact ⟨hw, hxw, fun hne => absurd rfl hne, fun _ => ⟨ptr_entry_none hnone _, hfull⟩⟩
    · next hne =>
      refine (entryBlock_ensures hw (hptr hne) hind).post ?_
      rintro a u ⟨hu, hx', ha⟩
      exact ⟨hu, hxw.trans (hx'.mono fun p hp => .inl (hp.trans (place_indirect hge).symm)), ha⟩

theorem ptr_addr_eq (h : v.ptr (i, .addr k) = some b) (ha : v.Active i) :
    (v.ip i).addrs k = b ∧ b ≠ 0 := by
  rw [Vol.ptr_active ha] at h
  simp only [Dinode.ptr] at h
  split at h
  · next hx =>
    cases h
    exact ⟨rfl, hx.2.2⟩
  · cases h

theorem ptr_entry_eq (h : v.ptr (i, .entry k) = some b) (ha : v.Active i) :
    ∃ ind, v.ptr (i, .addr ndirect) = some ind ∧ k < nindirect ∧ word (v.blk ind) k = b ∧ b ≠ 0 := by
  rw [Vol.ptr_active ha] at h
  simp only [Dinode.ptr] at h
  split at h
  · next hx =>
    cases h
    refine ⟨(v.ip i).addrs ndirect, ?_, hx.2.2.1, rfl, hx.2.2.2⟩
    rw [Vol.ptr_active ha, Dinode.ptr_addr hx.1 le_rfl hx.2.1]
  · cases h

section Present

variable {E : String → Vol → Prop}

theorem addrBlock_present (h : v.ptr (i, .addr k) = some b) (ha : v.Active i) :
    Ensures (addrBlock i k) v (fun a w => a = b ∧ w = v) E := by
  obtain ⟨he, hb⟩ := ptr_addr_eq h ha
  unfold addrBlock addrBlockBy
  apply Ensures.bind_get
  rw [he, if_neg hb]
  exact ⟨rfl, rfl⟩

theorem bmap_present {bn : Nat} (h : v.ptr (i, place bn) = some b) (ha : v.Active i) :
    Ensures (bmap i bn) v (fun a w => (a = b ∧ b ≠ 0) ∧ w = v) E := by
  unfold bmap bmapBy
  split
  · next hlt =>
    rw [place_direct hlt] at h
    refine (addrBlock_present h ha).post ?_
    rintro a w ⟨rfl, rfl⟩
    exact ⟨⟨rfl, (ptr_addr_eq h ha).2⟩, rfl⟩
  · next hge =>
    rw [place_indirect hge] at h
    obtain ⟨ind, hind, hk, hword, hb⟩ := ptr_entry_eq h ha
    rw [if_pos hk]
    refine (addrBlock_present hind ha).seq ?_
    rintro a w ⟨rfl, rfl⟩
    rw [if_neg (ptr_addr_eq hind ha).2]
    unfold entryBlockBy
    apply Ensures.bind_get
    rw [hword, if_neg hb]
    exact ⟨⟨rfl, hb⟩, rfl⟩

theorem readLoop_ensures (dst : Dst) (n rounds off tot : Nat) (buf : Nat → UInt8) (ha : v.Active i)
    (hpres : ∀ bn, bn * bsize < off + (n - tot) → v.ptr (i, place bn) ≠ none) :
    Ensures (readLoop i dst n rounds off tot buf) v (fun _ w => w = v) E := by
  induction rounds generalizing off tot buf with
  | zero => exact .pure rfl
  | succ rounds ih =>
    unfold readLoop
    split
    · next hlt =>
      have hin : off / bsize * bsize < off + (n - tot) := by
        have := Nat.div_mul_le_self off bsize
        omega
      obtain ⟨b, hb⟩ := Option.ne_none_iff_exists'.mp (hpres _ hin)
      refine (bmap_present hb ha).seq ?_
      rintro a w ⟨⟨rfl, hne⟩, rfl⟩
      rw [if_neg hne]
      apply Ensures.bind_get
      dsimp only
      split
      · exact .pure rfl
      · apply ih
        intro bn hbn
        exact hpres bn (by omega)
    · exact .pure rfl

theorem readi_ensures (ha : v.Active i) (ht : (v.ip i).type ≠ .free) (hf : v.Full i) (dst : Dst)
    (off n : UInt32) : Ensures (readi i dst off n) v (fun _ w => w = v) E := by
  unfold readi
  apply Ensures.bind_get
  dsimp only
  split
  · exact .pure rfl
  · next hno =>
    obtain ⟨hoff, hover⟩ := not_or.mp hno
    rw [UInt32.lt_iff_toNat_lt, UInt32.toNat_add] at hover
    unfold Vol.Full at hf
    rw [Vol.cur_active ha] at hf
    apply readLoop_ensures _ _ _ _ _ _ ha
    intro bn hbn
    refine (hf ht).2 bn ?_
    have hn := n.toNat_lt
    have ho := off.toNat_lt
    rw [UInt32.toNat_add] at hbn
    split at hbn <;> omega

end Present

structure Kept (v w : Vol) : Prop where
  ref : ∀ j, (w.itable j).ref = (v.itable j).ref
  active : ∀ j, v.Active j → w.Active j

theorem Kept.refl (v : Vol) : Kept v v := ⟨fun _ => rfl, fun _ h => h⟩

theorem Kept.trans (h : Kept v w) (h' : Kept w u) : Kept v u :=
  ⟨fun j => (h'.ref j).trans (h.ref j), fun j hj => h'.active j (h.active j hj)⟩

theorem Kept.of_itable (h : Kept v w) (hw : u.itable = w.itable) : Kept v u := by
  refine ⟨fun j => hw ▸ h.ref j, fun j hj => ?_⟩
  simpa only [Vol.Active, hw] using h.active j hj

theorem Alike.kept (h : Alike i v w) : Kept v w := by
  refine ⟨fun j => ?_, fun j hj => (h.active_iff j).mpr hj⟩
  by_cases hj : j = i
  · rw [hj, h.ref]
  · rw [h.others j hj]

theorem Vol.kept_setIp (v : Vol) (i : Nat) (n : Dinode) : Kept v (v.setIp i n) := by
  refine ⟨fun j => ?_, fun j hj => (v.setIp_active i j n).mpr hj⟩
  obtain rfl | hj := eq_or_ne j i
  · simp [Vol.setIp, Vol.setEntry]
  · rw [Vol.setIp_itable hj]

theorem Vol.ptr_setFields (ht : n.type = (v.ip i).type) (hn : n.addrs = (v.ip i).addrs) :
    (v.setIp i n).ptr = v.ptr := by
  funext ⟨j, p⟩
  obtain rfl | hj := eq_or_ne j i
  · by_cases ha : v.Active j
    · rw [Vol.ptr_setIp_self ha, Vol.ptr_active ha]
      cases p <;> simp only [Dinode.ptr, ht, hn]
    · have ha' : ¬ (v.setIp j n).Active j := fun hx => ha ((v.setIp_active j j n).mp hx)
      simp only [Vol.ptr, Vol.cur, if_neg ha, if_neg ha']
      rfl
  · exact Vol.ptr_setIp_of_ne hj n p

theorem Sound.setFields (h : Sound (some i) v) (ht : n.type = (v.ip i).type)
    (hn : n.addrs = (v.ip i).addrs) : Sound (some i) (v.setIp i n) ∧ (v.setIp i n).ptr = v.ptr := by
  have hptr : (v.setIp i n).ptr = v.ptr := Vol.ptr_setFields ht hn
  have hne : ∀ {j}, some j ≠ some i → j ≠ i := fun hj he => hj (congrArg some he)
  refine ⟨⟨?_, ?_, ?_, ?_, h.room, h.boot⟩, hptr⟩
  · unfold Vol.BlocksOwned
    rw [hptr]
    exact h.owned
  · intro j hj ha
    rw [Vol.ip, Vol.setIp_itable (hne hj)]
    exact h.synced j hj ((v.setIp_active i j n).mp ha)
  · intro j hj ha
    rw [Vol.ip, Vol.setIp_itable (hne hj)]
    exact h.live j hj ((v.setIp_active i j n).mp ha)
  · intro j hj
    have hcur : (v.setIp i n).cur j = v.cur j := by
      simp only [Vol.cur, v.setIp_active i j n, Vol.ip, Vol.setIp_itable (hne hj)]
      rfl
    have hf := h.full j hj
    unfold Vol.Full at hf ⊢
    rwa [hcur, hptr]

theorem Sound.settle (h : Sound (some i) v) {e : Entry}
    (hact : 0 < e.ref → e.valid = true → e.ip = n ∧ n.type ≠ .free)
    (hptr : ∀ p, n.ptr v.blk p = v.ptr (i, p))
    (hfull : n.type ≠ .free → n.size ≤ maxfile * bsize ∧
      ∀ bn, bn * bsize < n.size → v.ptr (i, place bn) ≠ none) :
    Sound none { v with dinode := update v.dinode i n, itable := update v.itable i e } := by
  obtain ⟨w, hw⟩ : ∃ w, { v with
    dinode := update v.dinode i n, itable := update v.itable i e } = w := ⟨_, rfl⟩
  rw [hw]
  have hblk : w.blk = v.blk := hw ▸ rfl
  have hentry : w.itable i = e := hw ▸ update_self i e v.itable
  have hother : ∀ j, j ≠ i → w.itable j = v.itable j :=
    fun j hj => hw ▸ update_of_ne hj e v.itable
  have hdin : w.dinode i = n := hw ▸ update_self i n v.dinode
  have hdin' : ∀ j, j ≠ i → w.dinode j = v.dinode j :=
    fun j hj => hw ▸ update_of_ne hj n v.dinode
  have hne : ∀ {j}, j ≠ i → some j ≠ some i := fun hj he => hj (Option.some.inj he)
  have hactive : ∀ j, j ≠ i → (w.Active j ↔ v.Active j) := by
    intro j hj
    simp only [Vol.Active, hother j hj]
  have hcur : w.cur i = n := by
    unfold Vol.cur
    split
    · next ha => rw [Vol.ip, hentry, (hact (hentry ▸ ha.1) (hentry ▸ ha.2)).1]
    · exact hdin
  have hcur' : ∀ j, j ≠ i → w.cur j = v.cur j := by
    intro j hj
    simp only [Vol.cur, hactive j hj, Vol.ip, hother j hj, hdin' j hj]
  have hsame : w.ptr = v.ptr := by
    funext x
    obtain ⟨j, p⟩ := x
    obtain rfl | hj := eq_or_ne j i
    · rw [← hptr p]
      simp only [Vol.ptr, hcur, hblk]
    · simp only [Vol.ptr, hcur' j hj, hblk]
  refine ⟨?_, ?_, ?_, ?_, ?_, ?_⟩
  · unfold Vol.BlocksOwned
    rw [hsame, ← hw]
    exact h.owned
  · intro j _ ha
    obtain rfl | hj := eq_or_ne j i
    · rw [Vol.ip, hentry, hdin, (hact (hentry ▸ ha.1) (hentry ▸ ha.2)).1]
    · rw [Vol.ip, hother j hj, hdin' j hj]
      exact h.synced j (hne hj) ((hactive j hj).mp ha)
  · intro j _ ha
    obtain rfl | hj := eq_or_ne j i
    · obtain ⟨hip, ht⟩ := hact (hentry ▸ ha.1) (hentry ▸ ha.2)
      rwa [Vol.ip, hentry, hip]
    · rw [Vol.ip, hother j hj]
      exact h.live j (hne hj) ((hactive j hj).mp ha)
  · intro j _
    unfold Vol.Full
    rw [hsame]
    obtain rfl | hj := eq_or_ne j i
    · rw [hcur]
      exact hfull
    · rw [hcur' j hj]
      exact h.full j (hne hj)
  · exact hw ▸ h.room
  · exact hw ▸ h.boot

theorem Sound.cur_eq (h : Sound none v) (i : Nat) : v.cur i = v.dinode i := by
  unfold Vol.cur
  split
  · next ha => exact h.synced i (Option.some_ne_none _) ha
  · rfl

theorem Sound.setEntry (h : Sound none v) {e : Entry}
    (hact : 0 < e.ref → e.valid = true → e.ip = v.dinode i ∧ (v.dinode i).type ≠ .free) :
    Sound none (v.setEntry i e) := by
  have hs := (h.relax i).settle hact (fun p => by rw [Vol.ptr, h.cur_eq])
    (fun ht => by simpa only [h.cur_eq] using h.full i (Option.some_ne_none _) (by rwa [h.cur_eq]))
  rwa [update_eq_self] at hs

theorem Sound.iupdate (h : Sound (some i) v) (ha : v.Active i) (ht : (v.ip i).type ≠ .free)
    (hf : v.Full i) : Sound none { v with dinode := update v.dinode i (v.ip i) } := by
  have hs := h.settle (e := v.itable i) (n := v.ip i) (fun _ _ => ⟨rfl, ht⟩)
    (fun p => (Vol.ptr_active ha p).symm) (by simpa only [Vol.Full, Vol.cur_active ha] using hf)
  rwa [update_eq_self] at hs

theorem writeLoop_ensures (src : Src) (n rounds off tot : Nat) (h : Sound (some i) v) (ha : v.Active i)
    (ht : (v.ip i).type ≠ .free) (hoff : off + (n - tot) ≤ maxfile * bsize)
    (hpres : ∀ bn, bn * bsize < off → v.ptr (i, place bn) ≠ none) :
    Ensures (writeLoop i src n rounds off tot) v (fun r w => Sound (some i) w ∧ Grown i v w ∧
      r.1 ≤ maxfile * bsize ∧ ∀ bn, bn * bsize < r.1 → w.ptr (i, place bn) ≠ none) E := by
  induction rounds generalizing off tot v with
  | zero => exact .pure ⟨h, Grown.refl i v, by omega, hpres⟩
  | succ rounds ih =>
    have hbs : bsize = 1024 := rfl
    unfold writeLoop writeLoopBy
    split
    · next hlt =>
      have hbn : off / bsize < maxfile := by
        rw [Nat.div_lt_iff_lt_mul (by decide)]
        omega
      refine (bmap_ensures h ha ht hbn).seq ?_
      rintro a w ⟨hw, ⟨hg, -, -⟩, hptr, -⟩
      have hpres' : ∀ bn, bn * bsize < off → w.ptr (i, place bn) ≠ none :=
        fun bn hbn => hg.ptr_ne_none (hpres bn hbn)
      split
      · exact .pure ⟨hw, hg, by omega, hpres'⟩
      · next hne =>
        apply Ensures.bind_get
        dsimp only
        apply Ensures.bind_set
        generalize eitherCopyin src (w.blk a) (off % bsize) tot
          (min (n - tot) (bsize - off % bsize)) = x
        have hsame := hw.ptr_write (off / bsize) (hptr hne) x.1
        have hlike : Alike i w { w with blk := update w.blk a x.1 } :=
          Alike.of_blocks i w _ _
        have hgw : Grown i v { w with blk := update w.blk a x.1 } :=
          hg.trans ⟨hlike, fun y c hy => hsame ▸ hy⟩
        have hsound : Sound (some i) { w with blk := update w.blk a x.1 } := by
          refine hlike.sound hw ?_ (fun j q _ hq => hsame ▸ hq)
          unfold Vol.BlocksOwned
          rw [hsame]
          exact hw.owned
        split
        · refine (ih _ _ hsound ((hgw.active_iff i).mpr ha) ?_ ?_ ?_).post ?_
          · rw [hgw.fields.1]
            exact ht
          · omega
          · intro bn hlow
            rw [hsame]
            -- the block just written is the last one below the new offset
            by_cases hlast : bn = off / bsize
            · rw [hlast, hptr hne]
              nofun
            · refine hpres' bn ?_
              rw [hbs] at hlow hlast ⊢
              omega
          · rintro r u ⟨hu, hgu, hr⟩
            exact ⟨hu, hgw.trans hgu, hr⟩
        · refine .pure ⟨hsound, hgw, by omega, ?_⟩
          intro bn hlow
          rw [hsame]
          exact hpres' bn hlow
    · exact .pure ⟨h, Grown.refl i v, by omega, hpres⟩

theorem writei_ensures (h : Sound none v) (ha : v.Active i) (src : Src)
    (off n : UInt32) : Ensures (writei i src off n) v (fun _ w => Sound none w ∧ Kept v w) E := by
  have ht : (v.ip i).type ≠ .free := h.live i (Option.some_ne_none _) ha
  have hfull := h.full i (Option.some_ne_none _)
  unfold Vol.Full at hfull
  rw [Vol.cur_active ha] at hfull
  obtain ⟨hsize, hpres⟩ := hfull ht
  unfold writei writeiBy
  apply Ensures.bind_get
  split
  · exact .pure ⟨h, Kept.refl v⟩
  · next hno =>
    obtain ⟨hoff, hover⟩ := not_or.mp hno
    split
    · exact .pure ⟨h, Kept.refl v⟩
    · next hmax =>
      rw [UInt32.lt_iff_toNat_lt] at hover
      rw [UInt32.toNat_add] at hover hmax
      have hn := n.toNat_lt
      have ho := off.toNat_lt
      refine (writeLoop_ensures src n.toNat n.toNat off.toNat 0 (h.relax i) ha ht (by omega) ?_).seq ?_
      · intro bn hbn
        exact hpres bn (by omega)
      · rintro ⟨off', tot⟩ w ⟨hw, hg, hle, hlow⟩
        have haw : w.Active i := (hg.active_iff i).mpr ha
        have htw : (w.ip i).type ≠ .free := by
          rw [hg.fields.1]
          exact ht
        apply Ensures.bind_modify
        apply Ensures.bind_modify
        apply Ensures.pure
        split
        · obtain ⟨hs, hptr⟩ := hw.setFields (n := { w.ip i with size := off' }) rfl rfl
          have has : (w.setIp i { w.ip i with size := off' }).Active i := (w.setIp_active i i _).mpr haw
          refine ⟨hs.iupdate has (by simpa using htw) ?_, ?_⟩
          · unfold Vol.Full
            rw [Vol.cur_active has, Vol.setIp_ip_self, hptr]
            exact fun _ => ⟨hle, hlow⟩
          · exact (hg.kept.trans (w.kept_setIp i _)).of_itable rfl
        · refine ⟨hw.iupdate haw htw ?_, hg.kept.of_itable rfl⟩
          unfold Vol.Full
          rw [Vol.cur_active haw, hg.fields.2.2]
          exact fun _ => ⟨hsize, fun bn hbn => hg.ptr_ne_none (hpres bn hbn)⟩

theorem Sound.emptied (h : Sound none v) (ha : v.Active i) : Sound none (v.emptied i) := by
  have ht : (v.ip i).type ≠ .free := h.live i (Option.some_ne_none _) ha
  have hptr := Vol.emptied_ptr ha
  refine ⟨h.owned.without ha ht rfl rfl hptr, ?_, ?_, ?_, h.room, h.boot⟩
  · intro j hd hj
    obtain rfl | hji := eq_or_ne j i
    · rw [v.emptied_ip, v.emptied_dinode]
    · have hip := h.synced j hd ((v.emptied_active i j).mp hj)
      rw [Vol.ip, Vol.emptied_itable hji]
      exact hip.trans (update_of_ne hji _ _).symm
  · intro j hd hj
    obtain rfl | hji := eq_or_ne j i
    · rw [v.emptied_ip]
      exact ht
    · rw [Vol.ip, Vol.emptied_itable hji]
      exact h.live j hd ((v.emptied_active i j).mp hj)
  · intro j hd
    obtain rfl | hji := eq_or_ne j i
    · intro _
      rw [Vol.cur_active ((v.emptied_active j j).mpr ha), v.emptied_ip]
      exact ⟨Nat.zero_le _, fun bn hbn => absurd hbn (Nat.not_lt_zero _)⟩
    · have hf := h.full j hd
      unfold Vol.Full at hf ⊢
      simp only [hptr, if_neg hji]
      rwa [Vol.emptied_cur hji]

theorem itrunc_ensures (h : Sound none v) (ha : v.Active i) :
    Ensures (itrunc i) v (fun _ w => Sound none w ∧ Kept v w ∧ ∀ p, w.ptr (i, p) = none) E := by
  have ht : (v.ip i).type ≠ .free := h.live i (Option.some_ne_none _) ha
  refine (itrunc_emptied h.owned ha ht).post ?_
  rintro _ _ rfl
  refine ⟨h.emptied ha, ?_, fun p => ?_⟩
  · exact (v.kept_setIp i (v.ip i).emptied).of_itable rfl
  · rw [Vol.emptied_ptr ha]
    exact if_pos rfl

end Xv6.Blocks
