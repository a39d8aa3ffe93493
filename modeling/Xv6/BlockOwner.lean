import Xv6.BlockMap
import Xv6.Lib.Ensures
import Xv6.Lib.Ownership

namespace Xv6.Blocks

open Xv6.Lib Xv6.Lib.Words Function
open Xv6.Inodes (FileType bsize)

def Vol.Active (v : Vol) (i : Nat) : Prop := 0 < (v.itable i).ref ∧ (v.itable i).valid = true

instance (v : Vol) (i : Nat) : Decidable (v.Active i) := inferInstanceAs (Decidable (_ ∧ _))

/-- The inode as the next `ilock` shows it. -/
def Vol.cur (v : Vol) (i : Nat) : Dinode := if v.Active i then v.ip i else v.dinode i

theorem Vol.cur_congr {v w : Vol} {j : Nat} (ht : w.itable j = v.itable j) (hd : w.dinode j = v.dinode j) :
    w.cur j = v.cur j := by
  have hact : w.Active j ↔ v.Active j := by simp only [Vol.Active, ht]
  simp only [Vol.cur, hact, Vol.ip, ht, hd]

inductive Place
  | addr (k : Nat)
  | entry (k : Nat)
  deriving DecidableEq

def Dinode.ptr (blk : Nat → Block) (n : Dinode) : Place → Option Nat
  | .addr k => if n.type ≠ .free ∧ k ≤ ndirect ∧ n.addrs k ≠ 0 then some (n.addrs k) else none
  | .entry k =>
    let a := word (blk (n.addrs ndirect)) k
    if n.type ≠ .free ∧ n.addrs ndirect ≠ 0 ∧ k < nindirect ∧ a ≠ 0 then some a else none

def Vol.ptr (v : Vol) (x : Nat × Place) : Option Nat := (v.cur x.1).ptr v.blk x.2

def place (bn : Nat) : Place := if bn < ndirect then .addr bn else .entry (bn - ndirect)

def Vol.Full (v : Vol) (i : Nat) : Prop :=
  (v.cur i).type ≠ .free → (v.cur i).size ≤ maxfile * bsize ∧
    ∀ bn, bn * bsize < (v.cur i).size → v.ptr (i, place bn) ≠ none

/-- Every block is named at most once, its bit is set if and only if it is named, and the blocks
before the first data block are in use and never named. -/
def Vol.BlocksOwned (v : Vol) : Prop := Owned (· < v.nmeta) (fun b => v.bit b = true) v.ptr

structure Sound (d : Option Nat) (v : Vol) : Prop where
  owned : v.BlocksOwned
  synced : ∀ i, some i ≠ d → v.Active i → v.ip i = v.dinode i
  live : ∀ i, some i ≠ d → v.Active i → (v.ip i).type ≠ .free
  full : ∀ i, some i ≠ d → v.Full i
  room : v.size ≤ 2 ^ 32
  boot : 0 < v.nmeta

/-- A panic other than those of `bfree` and `bmap`. -/
def Other (msg : String) (_ : Vol) : Prop := msg ≠ "freeing free block" ∧ msg ≠ "bmap: out of range"

variable {v w u : Vol} {d : Option Nat} {i j k b : Nat} {n : Dinode} {p : Place}

theorem Vol.cur_active (h : v.Active i) : v.cur i = v.ip i := if_pos h

theorem Vol.ptr_active (h : v.Active i) (p : Place) : v.ptr (i, p) = (v.ip i).ptr v.blk p := by
  simp only [Vol.ptr, Vol.cur_active h]

theorem Sound.relax (h : Sound none v) (i : Nat) : Sound (some i) v :=
  { h with
    synced := fun j _ => h.synced j (nofun)
    live := fun j _ => h.live j (nofun)
    full := fun j _ => h.full j (nofun) }

theorem place_ne (bn : Nat) : place bn ≠ .addr ndirect := by
  unfold place
  split
  · next h => simp only [ne_eq, Place.addr.injEq]; omega
  · nofun

namespace Dinode

theorem ptr_addr (ht : n.type ≠ .free) (hk : k ≤ ndirect) (ha : n.addrs k ≠ 0) (blk : Nat → Block) :
    n.ptr blk (.addr k) = some (n.addrs k) := if_pos ⟨ht, hk, ha⟩

theorem ptr_addr_zero (ha : n.addrs k = 0) (blk : Nat → Block) : n.ptr blk (.addr k) = none :=
  if_neg fun h => h.2.2 ha

theorem ptr_free (ht : n.type = .free) (blk : Nat → Block) (p : Place) : n.ptr blk p = none := by
  cases p <;> exact if_neg fun h => h.1 ht

theorem ptr_blk {blk blk' : Nat → Block}
    (h : ∀ b, n.ptr blk (.addr ndirect) = some b → blk' b = blk b) : n.ptr blk' = n.ptr blk := by
  funext p
  cases p with
  | addr k => rfl
  | entry k =>
    by_cases hn : n.type ≠ .free ∧ n.addrs ndirect ≠ 0
    · have hb := h _ (ptr_addr hn.1 le_rfl hn.2 blk)
      simp only [ptr, hb]
    · have hx : ∀ a, ¬ (n.type ≠ .free ∧ n.addrs ndirect ≠ 0 ∧ k < nindirect ∧ a ≠ 0) :=
        fun a ha => hn ⟨ha.1, ha.2.1⟩
      simp only [ptr, if_neg (hx _)]

end Dinode

theorem Vol.ptr_blk {blk : Nat → Block} (h : ∀ j c, v.ptr (j, .addr ndirect) = some c → blk c = v.blk c) :
    { v with blk := blk }.ptr = v.ptr := by
  funext x
  have hx : (v.cur x.1).ptr blk = (v.cur x.1).ptr v.blk := Dinode.ptr_blk (fun c hc => h x.1 c hc)
  exact congrFun hx x.2

theorem Sound.ptr_write (h : Sound d v) (bn : Nat) (hb : v.ptr (i, place bn) = some b) (x : Block) :
    { v with blk := update v.blk b x }.ptr = v.ptr := by
  refine Vol.ptr_blk fun j c hc => update_of_ne ?_ _ _
  intro he
  have hij := h.owned.once hb (he ▸ hc)
  exact place_ne bn (Prod.mk.inj hij).2

structure Alike (i : Nat) (v w : Vol) : Prop where
  nmeta : w.nmeta = v.nmeta
  size : w.size = v.size
  dinode : w.dinode = v.dinode
  others : ∀ j, j ≠ i → w.itable j = v.itable j
  ref : (w.itable i).ref = (v.itable i).ref
  valid : (w.itable i).valid = (v.itable i).valid
  fields : (w.ip i).type = (v.ip i).type ∧ (w.ip i).nlink = (v.ip i).nlink ∧ (w.ip i).size = (v.ip i).size

structure Grown (i : Nat) (v w : Vol) : Prop extends Alike i v w where
  ptr : ∀ x b, v.ptr x = some b → w.ptr x = some b

namespace Alike

theorem of_blocks (i : Nat) (v : Vol) (bit : Nat → Bool) (blk : Nat → Block) :
    Alike i v { v with bit := bit, blk := blk } :=
  ⟨rfl, rfl, rfl, fun _ _ => rfl, rfl, rfl, ⟨rfl, rfl, rfl⟩⟩

theorem refl (i : Nat) (v : Vol) : Alike i v v := of_blocks i v v.bit v.blk

theorem trans (h : Alike i v w) (h' : Alike i w u) : Alike i v u where
  nmeta := h'.nmeta.trans h.nmeta
  size := h'.size.trans h.size
  dinode := h'.dinode.trans h.dinode
  others j hj := (h'.others j hj).trans (h.others j hj)
  ref := h'.ref.trans h.ref
  valid := h'.valid.trans h.valid
  fields := ⟨h'.fields.1.trans h.fields.1, h'.fields.2.1.trans h.fields.2.1, h'.fields.2.2.trans h.fields.2.2⟩

theorem active_iff (h : Alike i v w) (j : Nat) : w.Active j ↔ v.Active j := by
  obtain rfl | hj := eq_or_ne j i
  · simp only [Vol.Active, h.ref, h.valid]
  · simp only [Vol.Active, h.others j hj]

theorem cur_eq (h : Alike i v w) (hj : j ≠ i) : w.cur j = v.cur j := by
  simp only [Vol.cur, h.active_iff j, Vol.ip, h.others j hj, h.dinode]

theorem sound (h : Alike i v w) (hs : Sound (some i) v) (ho : w.BlocksOwned)
    (hptr : ∀ j p, j ≠ i → v.ptr (j, p) ≠ none → w.ptr (j, p) ≠ none) : Sound (some i) w := by
  refine ⟨ho, ?_, ?_, ?_, h.size ▸ hs.room, h.nmeta ▸ hs.boot⟩
  · intro j hj ha
    have hne : j ≠ i := fun he => hj (congrArg some he)
    rw [h.dinode, Vol.ip, h.others j hne]
    exact hs.synced j hj ((h.active_iff j).mp ha)
  · intro j hj ha
    have hne : j ≠ i := fun he => hj (congrArg some he)
    rw [Vol.ip, h.others j hne]
    exact hs.live j hj ((h.active_iff j).mp ha)
  · intro j hj
    have hne : j ≠ i := fun he => hj (congrArg some he)
    have hf := hs.full j hj
    unfold Vol.Full at hf ⊢
    rw [h.cur_eq hne]
    exact fun ht => ⟨(hf ht).1, fun bn hbn => hptr j _ hne ((hf ht).2 bn hbn)⟩

end Alike

namespace Grown

theorem refl (i : Nat) (v : Vol) : Grown i v v := ⟨Alike.refl i v, fun _ _ h => h⟩

theorem trans (h : Grown i v w) (h' : Grown i w u) : Grown i v u :=
  ⟨h.toAlike.trans h'.toAlike, fun x b hx => h'.ptr x b (h.ptr x b hx)⟩

theorem ptr_ne_none (h : Grown i v w) {x : Nat × Place} (hx : v.ptr x ≠ none) : w.ptr x ≠ none := by
  obtain ⟨b, hb⟩ := Option.ne_none_iff_exists'.mp hx
  rw [h.ptr x b hb]
  nofun

end Grown

theorem balloc_ensures {E : String → Vol → Prop} (v : Vol) : Ensures balloc v
    (fun b w => (b = 0 ∧ w = v ∧ ∀ c, c < v.size → v.bit c = true) ∨ (b < v.size ∧ v.bit b = false ∧
      w = { v with bit := update v.bit b true, blk := update v.blk b (fun _ => 0) }))
    E := by
  unfold balloc ballocBy
  apply Ensures.bind_get
  split
  · next hnone =>
    refine .inl ⟨rfl, rfl, fun c hc => ?_⟩
    simpa using List.find?_eq_none.mp hnone c (List.mem_range.mpr hc)
  · next b hb =>
    refine .inr ⟨List.mem_range.mp (List.mem_of_find?_eq_some hb), ?_, rfl⟩
    simpa using List.find?_some hb

theorem Sound.fresh (h : Sound d v) (hb : v.bit b = false) : ¬ v.bit b = true ∧ b ≠ 0 ∧
    ∀ x, v.ptr x ≠ some b := by
  have hu : ¬ v.bit b = true := by simp [hb]
  refine ⟨hu, ?_, fun x hx => hu (h.owned.used_of_ptr hx)⟩
  rintro rfl
  exact hu ((h.owned.used_iff 0).mpr (.inl h.boot))

theorem used_update_true (v : Vol) (b c : Nat) :
    update v.bit b true c = true ↔ c = b ∨ v.bit c = true := by
  rw [update_apply]
  split <;> simp_all

theorem Vol.setIp_active (i j : Nat) (n : Dinode) : (v.setIp i n).Active j ↔ v.Active j := by
  obtain rfl | hj := eq_or_ne j i
  · simp [Vol.Active, Vol.setIp, Vol.setEntry]
  · simp [Vol.Active, Vol.setIp, Vol.setEntry, update_of_ne hj]

@[simp] theorem Vol.setIp_ip_self (v : Vol) (i : Nat) (n : Dinode) : (v.setIp i n).ip i = n := by
  simp [Vol.ip, Vol.setIp, Vol.setEntry]

theorem Vol.setIp_itable (hj : j ≠ i) (n : Dinode) : (v.setIp i n).itable j = v.itable j :=
  update_of_ne hj _ _

theorem Vol.ptr_setIp_self (ha : v.Active i) (n : Dinode) (p : Place) :
    (v.setIp i n).ptr (i, p) = n.ptr v.blk p := by
  rw [Vol.ptr_active ((v.setIp_active i i n).mpr ha), Vol.setIp_ip_self]
  rfl

theorem Vol.ptr_setIp_of_ne (hj : j ≠ i) (n : Dinode) (p : Place) :
    (v.setIp i n).ptr (j, p) = v.ptr (j, p) := by
  simp only [Vol.ptr, Vol.cur, v.setIp_active i j n, Vol.ip, Vol.setIp_itable hj n]
  rfl

theorem Vol.ptr_setAddr (ha : v.Active i) (ht : (v.ip i).type ≠ .free) (hk : k ≤ ndirect)
    (hent : k = ndirect → ∀ m, v.ptr (i, .entry m) = none ∧ (b ≠ 0 → word (v.blk b) m = 0)) :
    (v.setIp i { v.ip i with addrs := update (v.ip i).addrs k b }).ptr =
      update v.ptr (i, .addr k) (if b = 0 then none else some b) := by
  funext ⟨j, p⟩
  obtain rfl | hj := eq_or_ne j i
  · rw [Vol.ptr_setIp_self ha]
    cases p with
    | addr m =>
      obtain rfl | hm := eq_or_ne m k
      · rw [update_self]
        by_cases hb : b = 0
        · simp [Dinode.ptr, hb]
        · simp [Dinode.ptr, hb, ht, hk]
      · rw [update_of_ne (by simpa using hm), Vol.ptr_active ha]
        simp only [Dinode.ptr, update_of_ne hm]
    | entry m =>
      rw [update_of_ne (by simp)]
      by_cases hkn : k = ndirect
      · obtain ⟨hnone, hzero⟩ := hent hkn m
        rw [hnone, hkn]
        by_cases hb : b = 0
        · simp [Dinode.ptr, hb]
        · simp [Dinode.ptr, hzero hb]
      · rw [Vol.ptr_active ha]
        simp only [Dinode.ptr, update_of_ne (Ne.symm hkn)]
  · rw [Vol.ptr_setIp_of_ne hj, update_of_ne]
    simp [hj]

theorem Vol.alike_setAddrs (v : Vol) (i : Nat) (addrs : Nat → Nat) :
    Alike i v (v.setIp i { v.ip i with addrs := addrs }) := by
  refine ⟨rfl, rfl, rfl, fun j hj => Vol.setIp_itable hj _, ?_, ?_, ?_⟩
  · simp [Vol.setIp, Vol.setEntry]
  · simp [Vol.setIp, Vol.setEntry]
  · simp

theorem Alike.fill (h : Alike i v w) (hs : Sound (some i) v) (hp : v.ptr (i, p) = none)
    (hb : v.bit b = false) (hbit : w.bit = update v.bit b true)
    (hptr : w.ptr = update v.ptr (i, p) (some b)) :
    Sound (some i) w ∧ Grown i v w ∧ w.ptr (i, p) = some b := by
  have ho : w.BlocksOwned := by
    unfold Vol.BlocksOwned
    rw [h.nmeta, hbit, hptr]
    exact hs.owned.fill hp (hs.fresh hb).1 (used_update_true v b)
  have hmono : ∀ x c, v.ptr x = some c → w.ptr x = some c := by
    intro x c hx
    rw [hptr, update_of_ne, hx]
    rintro rfl
    rw [hp] at hx
    cases hx
  have hg : Grown i v w := ⟨h, hmono⟩
  refine ⟨h.sound hs ho (fun j q _ hq => hg.ptr_ne_none hq), hg, ?_⟩
  rw [hptr, update_self]

end Xv6.Blocks
