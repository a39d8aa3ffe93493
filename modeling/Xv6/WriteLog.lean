import Xv6.BlockOwner
import Xv6.Mkfs

namespace Xv6.WriteLog

open Xv6.Lib Xv6.Lib.Words Function
open Xv6.Blocks (Vol Src Dinode Logged ndirect bzeroBy ballocBy addrBlockBy entryBlockBy bmapBy iupdateBy writeLoopBy
  writeiBy)
open Xv6.Inodes (bsize)
open Xv6.Mkfs (bpb ipb)

structure Superblock where
  inodestart : Nat
  bmapstart : Nat

structure Txn where
  vol : Vol
  logged : List Nat

abbrev T := EStateM String Txn

/-- `log_write` of a block; a block may be listed more than once. -/
def logWrite (sb : Superblock) (x : Logged) : T Unit :=
  modify fun t => { t with logged := t.logged ++ [match x with
    | .bitmap b => sb.bmapstart + b / bpb
    | .inode i => sb.inodestart + i / ipb
    | .block b => b] }

instance volState : MonadStateOf Vol T where
  get t := .ok t.vol t
  set v t := .ok ⟨⟩ { t with vol := v }
  modifyGet g t := .ok (g t.vol).1 { t with vol := (g t.vol).2 }

def writei (sb : Superblock) (i : Nat) (src : Src) (off n : UInt32) : T Int := writeiBy (logWrite sb) i src off n

section Rules

variable {α : Type} {t : Txn} {Q : α → Txn → Prop} {E : String → Txn → Prop}

theorem bind_vol {f : Vol → T α} (h : Ensures (f t.vol) t Q E) : Ensures (get >>= f) t Q E := .bind h

theorem bind_setVol {v : Vol} {f : PUnit → T α} (h : Ensures (f ⟨⟩) { t with vol := v } Q E) :
    Ensures (set v >>= f) t Q E := .bind h

end Rules

variable {sb : Superblock} {i k l len : Nat} {s t u : Txn} {D D' : Finset Nat} {E : String → Txn → Prop}

def Txn.ind (t : Txn) (i : Nat) : Nat := (t.vol.ip i).addrs ndirect

/-- Since `t` only the bitmap block, blocks of `D` and the indirect block of `i` were logged. -/
structure Logs (sb : Superblock) (i : Nat) (D : Finset Nat) (t u : Txn) : Prop where
  size : u.vol.size = t.vol.size
  stays : t.ind i ≠ 0 → u.ind i = t.ind i
  only : ∀ b ∈ u.logged, b ∈ t.logged ∨ b = sb.bmapstart ∨ b ∈ D ∨ (b = u.ind i ∧ b ≠ 0)

namespace Logs

theorem refl (sb : Superblock) (i : Nat) (t : Txn) : Logs sb i ∅ t t := ⟨rfl, fun _ => rfl, fun _ hb => .inl hb⟩

theorem trans (h : Logs sb i D s t) (h' : Logs sb i D' t u) : Logs sb i (D ∪ D') s u where
  size := h'.size.trans h.size
  stays hs := by
    have ht := h.stays hs
    rw [h'.stays (ht ▸ hs), ht]
  only b hb := by
    rcases h'.only b hb with hb | hb | hb | hb
    · rcases h.only b hb with hb | hb | hb | ⟨hb, h0⟩
      · exact .inl hb
      · exact .inr (.inl hb)
      · exact .inr (.inr (.inl (Finset.mem_union_left _ hb)))
      · exact .inr (.inr (.inr ⟨hb.trans (h'.stays (hb ▸ h0)).symm, h0⟩))
    · exact .inr (.inl hb)
    · exact .inr (.inr (.inl (Finset.mem_union_right _ hb)))
    · exact .inr (.inr (.inr hb))

theorem vol (h : Logs sb i D s t) {v : Vol} (hsize : v.size = t.vol.size)
    (hind : t.ind i ≠ 0 → (v.ip i).addrs ndirect = t.ind i) : Logs sb i D s { t with vol := v } where
  size := hsize.trans h.size
  stays hs := by
    have ht := h.stays hs
    exact (hind (ht ▸ hs)).trans ht
  only b hb := by
    rcases h.only b hb with hb | hb | hb | ⟨hb, h0⟩
    · exact .inl hb
    · exact .inr (.inl hb)
    · exact .inr (.inr (.inl hb))
    · exact .inr (.inr (.inr ⟨hb.trans (hind (hb ▸ h0)).symm, h0⟩))

theorem log (h : Logs sb i D s t) {b : Nat} (hb : b = sb.bmapstart ∨ b ∈ D ∨ (b = t.ind i ∧ b ≠ 0)) :
    Logs sb i D s { t with logged := t.logged ++ [b] } where
  size := h.size
  stays := h.stays
  only c hc := by
    rcases List.mem_append.mp hc with hc | hc
    · exact h.only c hc
    · rw [List.mem_singleton.mp hc]
      exact .inr hb

theorem mono (h : Logs sb i D s t) (hD : D ⊆ D') : Logs sb i D' s t where
  size := h.size
  stays := h.stays
  only b hb := by
    rcases h.only b hb with hb | hb | hb | hb
    · exact .inl hb
    · exact .inr (.inl hb)
    · exact .inr (.inr (.inl (hD hb)))
    · exact .inr (.inr (.inr hb))

end Logs

section

variable (hsize : t.vol.size ≤ bpb)
include hsize

theorem balloc_logs (i : Nat) :
    Ensures (ballocBy (logWrite sb)) t (fun b u => Logs sb i {b} t u ∧ u.vol.itable = t.vol.itable) E := by
  unfold ballocBy
  apply bind_vol
  split
  · exact .pure ⟨(Logs.refl sb i t).mono (Finset.empty_subset _), rfl⟩
  · next b hb =>
    have hlt : b < t.vol.size := List.mem_range.mp (List.mem_of_find?_eq_some hb)
    have hbit : sb.bmapstart + b / bpb = sb.bmapstart := by
      rw [Nat.div_eq_of_lt (hlt.trans_le hsize), Nat.add_zero]
    apply bind_setVol
    apply Ensures.bind_modify
    unfold bzeroBy
    apply Ensures.bind
    apply Ensures.bind_modify
    apply Ensures.modify
    apply Ensures.pure
    have hfirst : Logs sb i {b} t t := (Logs.refl sb i t).mono (Finset.empty_subset _)
    refine ⟨.log (.vol (.log (.vol hfirst ?_ ?_) ?_) ?_ ?_) ?_, rfl⟩
    · exact rfl
    · exact fun _ => rfl
    · exact .inl hbit
    · exact rfl
    · exact fun _ => rfl
    · exact .inr (.inl (Finset.mem_singleton_self b))

theorem addrBlock_direct (hk : k ≠ ndirect) :
    Ensures (addrBlockBy (logWrite sb) i k) t (fun a u => Logs sb i {a} t u) E := by
  unfold addrBlockBy
  apply bind_vol
  split
  · refine (balloc_logs hsize i).seq ?_
    rintro a u ⟨hu, -⟩
    split
    · next h0 => exact .pure (h0 ▸ hu)
    · apply Ensures.bind_modify
      refine .pure (hu.vol rfl fun _ => ?_)
      rw [Vol.setIp_ip_self]
      exact update_of_ne hk.symm _ _
  · exact .pure ((Logs.refl sb i t).mono (Finset.empty_subset _))

theorem addrBlock_ind :
    Ensures (addrBlockBy (logWrite sb) i ndirect) t
      (fun a u => if a = 0 then Logs sb i {0} t u else Logs sb i ∅ t u ∧ u.ind i = a) E := by
  unfold addrBlockBy
  apply bind_vol
  split
  · next hnone =>
    refine (balloc_logs hsize i).seq ?_
    rintro a u ⟨hu, hit⟩
    split
    · next h0 =>
      apply Ensures.pure
      rw [if_pos rfl]
      exact h0 ▸ hu
    · next h0 =>
      have hind : u.ind i = 0 := by
        unfold Txn.ind Vol.ip
        rw [hit]
        exact hnone
      apply Ensures.bind_modify
      apply Ensures.pure
      rw [if_neg h0]
      have hnew : ∀ n : Dinode, n.addrs ndirect = a → a = Txn.ind { u with vol := u.vol.setIp i n } i := by
        intro n hn
        rw [Txn.ind, Vol.setIp_ip_self, hn]
      have hset : update (u.vol.ip i).addrs ndirect a ndirect = a := update_self _ _ _
      refine ⟨⟨hu.size, fun hne => absurd hnone hne, fun b hb => ?_⟩, (hnew _ hset).symm⟩
      rcases hu.only b hb with hb | hb | hb | ⟨hb, hb0⟩
      · exact .inl hb
      · exact .inr (.inl hb)
      · rw [Finset.mem_singleton.mp hb]
        exact .inr (.inr (.inr ⟨hnew _ hset, h0⟩))
      · exact absurd (hb.trans hind) hb0
  · next hsome =>
    apply Ensures.pure
    rw [if_neg hsome]
    exact ⟨Logs.refl sb i t, rfl⟩

theorem entryBlock_logs {ind : Nat} (hind : t.ind i = ind) (h0 : ind ≠ 0) (bn : Nat) :
    Ensures (entryBlockBy (logWrite sb) ind bn) t (fun a u => Logs sb i {a} t u) E := by
  unfold entryBlockBy
  apply bind_vol
  split
  · refine (balloc_logs hsize i).seq ?_
    rintro a u ⟨hu, -⟩
    split
    · next ha => exact .pure (ha ▸ hu)
    · have hstay : u.ind i = ind := (hu.stays (hind ▸ h0)).trans hind
      apply Ensures.bind_modify
      apply Ensures.bind_modify
      apply Ensures.pure
      refine .log (.vol hu ?_ ?_) ?_
      · exact rfl
      · exact fun _ => rfl
      · exact .inr (.inr ⟨hstay.symm, h0⟩)
  · exact .pure ((Logs.refl sb i t).mono (Finset.empty_subset _))

theorem bmap_logs (bn : Nat) :
    Ensures (bmapBy (logWrite sb) i bn) t (fun a u => Logs sb i {a} t u) (fun _ u => Logs sb i ∅ t u) := by
  unfold bmapBy
  split
  · next hlt => exact addrBlock_direct hsize hlt.ne
  · split
    · refine (addrBlock_ind hsize).seq fun ind u hu => ?_
      split
      · next h0 =>
        rw [if_pos h0] at hu
        exact .pure hu
      · next h0 =>
        rw [if_neg h0] at hu
        refine (entryBlock_logs (hu.1.size.trans_le hsize) hu.2 h0 _).post fun a x hx => ?_
        have hlog := hu.1.trans hx
        rwa [Finset.empty_union] at hlog
    · exact .throw (Logs.refl sb i t)

end

def span (off len : Nat) : Nat := if len = 0 then 0 else (off % bsize + len + (bsize - 1)) / bsize

theorem span_step {off m : Nat} (hlen : 0 < len) (hm : m = min len (bsize - off % bsize)) :
    1 + span (off + m) (len - m) ≤ span off len := by
  have hb : bsize = 1024 := rfl
  unfold span
  rw [hb] at hm ⊢
  split_ifs <;> omega

theorem span_chunk (off : Nat) (hlen : len ≤ 3 * bsize) : span off len ≤ 4 := by
  have hb : bsize = 1024 := rfl
  unfold span
  rw [hb] at hlen ⊢
  split_ifs <;> omega

def LogsUpTo (sb : Superblock) (i k : Nat) (t u : Txn) : Prop := ∃ D, D.card ≤ k ∧ Logs sb i D t u

theorem LogsUpTo.mono (h : LogsUpTo sb i k t u) (hkl : k ≤ l) : LogsUpTo sb i l t u := by
  obtain ⟨D, hcard, hD⟩ := h
  exact ⟨D, hcard.trans hkl, hD⟩

theorem Logs.upTo {a : Nat} (h : Logs sb i {a} t u) : LogsUpTo sb i 1 t u :=
  ⟨{a}, (Finset.card_singleton a).le, h⟩

theorem LogsUpTo.trans (h : LogsUpTo sb i k s t) (h' : LogsUpTo sb i l t u) :
    LogsUpTo sb i (k + l) s u := by
  obtain ⟨D, hcard, hD⟩ := h
  obtain ⟨D', hcard', hD'⟩ := h'
  exact ⟨D ∪ D', (Finset.card_union_le D D').trans (by omega), hD.trans hD'⟩

theorem writeLoop_logs (src : Src) (n rounds off tot : Nat) (hsize : t.vol.size ≤ bpb) :
    Ensures (writeLoopBy (logWrite sb) i src n rounds off tot) t (fun _ u => LogsUpTo sb i (span off (n - tot)) t u)
      (fun _ u => LogsUpTo sb i (span off (n - tot)) t u) := by
  have hnone : ∀ t k, LogsUpTo sb i k t t := fun t _ => ⟨∅, Nat.zero_le _, Logs.refl sb i t⟩
  induction rounds generalizing off tot t with
  | zero => exact .pure (hnone t _)
  | succ rounds ih =>
    rw [writeLoopBy]
    split
    · next hlt =>
      obtain ⟨m, hm⟩ : ∃ m, m = min (n - tot) (bsize - off % bsize) := ⟨_, rfl⟩
      have hstep := span_step (by omega) hm
      rw [Nat.sub_sub] at hstep
      have hone : 1 ≤ span off (n - tot) := (Nat.le_add_right _ _).trans hstep
      apply Ensures.bind
      refine (bmap_logs hsize _).imp (fun a u hu => ?_) fun _ u hu => ⟨∅, Nat.zero_le _, hu⟩
      split
      · exact .pure (hu.upTo.mono hone)
      · apply bind_vol
        rw [← hm]
        dsimp only
        apply bind_setVol
        have hset : ∀ x, Logs sb i {a} t { u with vol := { u.vol with blk := update u.vol.blk a x } } :=
          fun x => hu.vol rfl fun _ => rfl
        split
        · have hlog := fun x => (hset x).log (.inr (.inl (Finset.mem_singleton_self a)))
          apply Ensures.bind_modify
          refine Ensures.imp (ih _ _ ?_) (fun _ _ hx => ((hlog _).upTo.trans hx).mono hstep)
            fun _ _ hx => ((hlog _).upTo.trans hx).mono hstep
          exact hu.size.trans_le hsize
        · exact .pure ((hset _).upTo.mono hone)
    · exact .pure (hnone t _)

theorem Logs.card {v : Vol} (h : Logs sb i D ⟨v, []⟩ t) (inode : Nat) :
    (t.logged ++ [inode]).toFinset.card ≤ D.card + 3 := by
  have hsub : (t.logged ++ [inode]).toFinset ⊆ insert inode (insert sb.bmapstart (insert (t.ind i) D)) := by
    intro b hb
    rw [List.mem_toFinset, List.mem_append, List.mem_singleton] at hb
    simp only [Finset.mem_insert]
    rcases hb with hb | hb
    · rcases h.only b hb with hb | hb | hb | hb
      · cases hb
      · exact .inr (.inl hb)
      · exact .inr (.inr (.inr hb))
      · exact .inr (.inr (.inl hb.1))
    · exact .inl hb
  refine (Finset.card_le_card hsub).trans ((Finset.card_insert_le _ _).trans ?_)
  have h2 := Finset.card_insert_le sb.bmapstart (insert (t.ind i) D)
  have h3 := Finset.card_insert_le (t.ind i) D
  omega

theorem writei_logs {v : Vol} (hsize : v.size ≤ bpb) (sb : Superblock) (i : Nat) (src : Src) (off : UInt32)
    {n : UInt32} (hn : n.toNat ≤ 3 * bsize) :
    Ensures (writei sb i src off n) ⟨v, []⟩ (fun _ t => t.logged.toFinset.card ≤ 7)
      (fun _ t => t.logged.toFinset.card ≤ 7) := by
  have hspan := span_chunk off.toNat hn
  have hlog : ∀ {D : Finset Nat} {t}, D.card ≤ span off.toNat (n.toNat - 0) → Logs sb i D ⟨v, []⟩ t →
      ∀ b, (t.logged ++ [b]).toFinset.card ≤ 7 := by
    intro D t hD ht b
    have := ht.card b
    rw [Nat.sub_zero] at hD
    omega
  unfold writei writeiBy
  apply bind_vol
  split
  · exact .pure (Nat.zero_le _)
  split
  · exact .pure (Nat.zero_le _)
  apply Ensures.bind
  refine (writeLoop_logs src n.toNat n.toNat off.toNat 0 hsize).imp ?_ ?_
  · rintro ⟨off', tot⟩ t ⟨D, hD, ht⟩
    unfold iupdateBy
    apply Ensures.bind_modify
    apply Ensures.bind
    apply Ensures.bind_modify
    apply Ensures.modify
    exact .pure (hlog hD ht _)
  · rintro e t ⟨D, hD, ht⟩
    refine le_trans (Finset.card_le_card fun b hb => ?_) (hlog hD ht 0)
    rw [List.mem_toFinset] at hb ⊢
    exact List.mem_append_left _ hb

end Xv6.WriteLog
