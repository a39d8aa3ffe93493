import Xv6.BlockCalls
import Xv6.BlockReads

namespace Xv6.Blocks

open Xv6.Lib
open Xv6.Inodes (ninode)

variable {v w u : Vol} {i j : Nat} {E : String → Vol → Prop}

theorem SameFiles.refl (v : Vol) : SameFiles v v := ⟨fun _ => rfl, rfl, rfl, rfl, rfl, rfl⟩

structure Opened (i : Nat) (v w : Vol) : Prop extends SameFiles v w, Gained i v w where
  sound : Sound none w
  fresh : (w.itable i).ref = 1 → (w.itable i).valid = false

structure Closed (i : Nat) (v w : Vol) : Prop extends SameFiles v w, Lost i v w where
  sound : Sound none w

structure Loaded (i : Nat) (v w : Vol) : Prop extends SameFiles v w, Kept v w where
  sound : Sound none w
  here : w.Active i
  live : (v.cur i).type ≠ .free

theorem Gained.setEntry {e : Entry} (href : e.ref = (v.itable i).ref + 1)
    (hvalid : 0 < (v.itable i).ref → e.valid = (v.itable i).valid) : Gained i v (v.setEntry i e) := by
  refine ⟨fun j => ?_, fun j hj => ?_⟩
  · rw [Vol.setEntry_itable]
    split_ifs with hji
    · rw [href, hji]
    · rfl
  · unfold Vol.Active at hj ⊢
    rw [Vol.setEntry_itable]
    split_ifs with hji
    · subst hji
      exact ⟨by omega, (hvalid hj.1).trans hj.2⟩
    · exact hj

theorem opened_setEntry (h : Sound none v) (href : 0 < (v.itable i).ref) :
    Opened i v (v.setEntry i { v.itable i with ref := (v.itable i).ref + 1 }) where
  toSameFiles := SameFiles.setEntry _ (by simp [Vol.cur, Vol.Active, Vol.ip, Vol.setEntry, href])
  toGained := Gained.setEntry rfl fun _ => rfl
  sound := h.setEntry fun _ hv =>
    have hip := h.synced i (Option.some_ne_none _) ⟨href, hv⟩
    ⟨hip, hip ▸ h.live i (Option.some_ne_none _) ⟨href, hv⟩⟩
  fresh hone := by
    rw [Vol.setEntry_itable, if_pos rfl] at hone
    dsimp only at hone
    omega

def Vol.NoInodes (v : Vol) (msg : String) : Prop := msg = "iget: no inodes" ∧ ninode ≤ v.entries

theorem iget_opened (h : Sound none v) (i : Nat) :
    Ensures (iget i) v (fun _ w => Opened i v w) (fun e _ => v.NoInodes e) := by
  unfold iget
  apply Ensures.bind_get
  dsimp only
  split_ifs with href hfull
  · exact .set (opened_setEntry h href)
  · exact .throw ⟨rfl, hfull⟩
  · have hzero : (v.itable i).ref = 0 := by omega
    refine .set ⟨SameFiles.setEntry _ ?_, Gained.setEntry (by rw [hzero]) fun hr => absurd hr href,
      h.setEntry fun _ hv => absurd hv Bool.false_ne_true, fun _ => ?_⟩
    · simp [Vol.cur, Vol.Active, Vol.setEntry, href]
    · rw [Vol.setEntry_itable, if_pos rfl]

theorem idup_opened (h : Sound none v) (href : 0 < (v.itable i).ref) :
    Ensures (idup i) v (fun _ w => Opened i v w) E :=
  .modify (opened_setEntry h href)

theorem ilock_loaded (h : Sound none v) (i : Nat) :
    Ensures (ilock i) v (fun _ w => Loaded i v w)
      (fun e _ => (e = "ilock" ∧ (v.itable i).ref = 0) ∨
        (e = "ilock: no type" ∧ (v.cur i).type = .free)) := by
  unfold ilock
  apply Ensures.bind_get
  dsimp only
  split_ifs with href hvalid hfree
  · exact .throw (.inl ⟨rfl, by omega⟩)
  · have ha : v.Active i := ⟨by omega, hvalid⟩
    refine .pure ⟨SameFiles.refl v, Kept.refl v, h, ha, ?_⟩
    rw [Vol.cur_active ha]
    exact h.live i (Option.some_ne_none _) ha
  · have hcur : v.cur i = v.dinode i := if_neg fun ha => hvalid ha.2
    apply Ensures.bind_set
    exact .throw (.inr ⟨rfl, hcur ▸ hfree⟩)
  · have hcur : v.cur i = v.dinode i := if_neg fun ha => hvalid ha.2
    apply Ensures.bind_set
    have hpos : 0 < (v.itable i).ref := by omega
    have ha : (v.setEntry i ⟨(v.itable i).ref, true, v.dinode i⟩).Active i := by
      unfold Vol.Active
      rw [Vol.setEntry_itable, if_pos rfl]
      exact ⟨hpos, rfl⟩
    refine .pure ⟨SameFiles.setEntry _ ?_, ⟨fun j => ?_, fun j hj => ?_⟩,
      h.setEntry fun _ _ => ⟨rfl, hfree⟩, ha, hcur ▸ hfree⟩
    · rw [Vol.cur_active ha, Vol.ip, Vol.setEntry_itable, if_pos rfl, hcur]
    · rw [Vol.setEntry_itable]
      split_ifs with hj
      · rw [hj]
      · rfl
    · unfold Vol.Active at hj ⊢
      rw [Vol.setEntry_itable]
      split_ifs with he
      · exact ⟨he ▸ hj.1, rfl⟩
      · exact hj

theorem iput_closed (h : Sound none v)
    (hkeep : ¬((v.itable i).ref = 1 ∧ (v.itable i).valid = true ∧ (v.itable i).ip.nlink = 0)) :
    Ensures (iput i) v (fun _ w => Closed i v w) E := by
  unfold iput
  apply Ensures.bind_get
  dsimp only
  rw [if_neg hkeep]
  apply Ensures.modify
  have hs : Sound none (v.setEntry i { v.itable i with ref := (v.itable i).ref - 1 }) := by
    refine h.setEntry fun hr hv => ?_
    have ha : v.Active i := ⟨Nat.lt_of_lt_of_le hr (Nat.sub_le _ _), hv⟩
    have hip : v.ip i = v.dinode i := h.synced i (Option.some_ne_none _) ha
    exact ⟨hip, hip ▸ h.live i (Option.some_ne_none _) ha⟩
  refine ⟨SameFiles.setEntry _ ?_, ⟨fun j => ?_, fun j hj hr => ?_⟩, hs⟩
  · rw [h.cur_eq i, hs.cur_eq i]
    rfl
  · rw [Vol.setEntry_itable]
    split_ifs with hji
    · rw [hji]
    · rfl
  · unfold Vol.Active at hj ⊢
    rw [Vol.setEntry_itable] at hr ⊢
    split_ifs with hji
    · rw [if_pos hji] at hr
      exact ⟨hr, hji ▸ hj.2⟩
    · exact hj

end Xv6.Blocks
