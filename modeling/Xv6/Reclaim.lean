import Xv6.BlockOwnership

namespace Xv6.Blocks

open Xv6.Lib Function

variable {v w u : Vol} {i b : Nat} {S S' : Nat → Prop} {E : String → Vol → Prop}

/-- A round of the loop of `ireclaim`. What it does to an orphan is one transaction. -/
def reclaimInode (inum : Nat) : V Unit := do
  let v ← get
  if (v.dinode inum).type ≠ .free ∧ (v.dinode inum).nlink = 0 then do
    iget inum
    ilock inum
    iput inum

def reclaimRounds (k : Nat) : V Unit := (List.range k).forM fun n => reclaimInode (n + 1)

def ireclaim : V Unit := do
  let v ← get
  reclaimRounds (v.ninodes - 1)

def Vol.Idle (v : Vol) : Prop := ∀ i, (v.itable i).ref = 0

/-- The machine starts again: the disk is left, with whole transactions. -/
def Vol.reboot (v : Vol) : Vol := { v with itable := fun _ => ⟨0, false, Dinode.zero⟩ }

/-- Boots that crashed in `ireclaim`, each after some rounds. A round in which the machine stops has
happened as a whole or not at all. -/
inductive Crashes (v : Vol) : Vol → Prop
  | none : Crashes v v
  | crash {w u : Vol} {k : Nat} : Crashes v w → k ≤ w.ninodes - 1 → reclaimRounds k w = .ok () u →
      Crashes v u.reboot

def Vol.Orphan (v : Vol) (i : Nat) : Prop :=
  0 < i ∧ i < v.ninodes ∧ (v.dinode i).type ≠ .free ∧ (v.dinode i).nlink = 0

/-- The inodes in `S` are freed with all their blocks; all other inodes, bits and blocks are the same. -/
structure Reclaimed (S : Nat → Prop) (v w : Vol) : Prop where
  idle : w.Idle
  owned : w.BlocksOwned
  blk : w.blk = v.blk
  bounds : w.size = v.size ∧ w.nmeta = v.nmeta ∧ w.ninodes = v.ninodes
  freed : ∀ i, S i → (w.dinode i).type = .free
  others : ∀ i, ¬S i → w.dinode i = v.dinode i
  bit : ∀ b, w.bit b = true ↔ v.bit b = true ∧ ∀ i p, S i → v.ptr (i, p) ≠ some b

theorem Vol.Idle.cur (h : v.Idle) (i : Nat) : v.cur i = v.dinode i :=
  if_neg fun ha => absurd ha.1 (by rw [h i]; exact lt_irrefl 0)

theorem Vol.Idle.ptr (h : v.Idle) (i : Nat) (p : Place) : v.ptr (i, p) = (v.dinode i).ptr v.blk p := by
  rw [Vol.ptr, h.cur]

theorem Vol.Idle.entries (h : v.Idle) : v.entries = 0 := by
  refine List.countP_eq_zero.mpr fun i _ => ?_
  rw [h i]
  decide

theorem Reclaimed.start (h : v.BlocksOwned) (hi : v.Idle) : Reclaimed (fun _ => False) v v :=
  ⟨hi, h, rfl, ⟨rfl, rfl, rfl⟩, nofun, fun _ _ => rfl, fun _ => ⟨fun hb => ⟨hb, nofun⟩, fun hb => hb.1⟩⟩

theorem Reclaimed.congr (h : Reclaimed S v w) (hS : ∀ i, S i ↔ S' i) : Reclaimed S' v w := by
  obtain rfl : S = S' := funext fun i => propext (hS i)
  exact h

theorem Reclaimed.reboot (h : Reclaimed S v w) : Reclaimed S v w.reboot := by
  have hidle : w.reboot.Idle := fun _ => rfl
  have hptr : w.reboot.ptr = w.ptr := by
    funext ⟨i, p⟩
    rw [hidle.ptr, h.idle.ptr]
    rfl
  refine { h with idle := hidle, owned := ?_ }
  unfold Vol.BlocksOwned
  rw [hptr]
  exact h.owned

def Vol.loaded (v : Vol) (i : Nat) : Vol := v.setEntry i ⟨1, true, v.dinode i⟩

theorem Vol.loaded_active (v : Vol) (i : Nat) : (v.loaded i).Active i := by
  unfold Vol.Active
  rw [Vol.loaded, Vol.setEntry_itable, if_pos rfl]
  exact ⟨Nat.one_pos, rfl⟩

theorem Vol.loaded_ip (v : Vol) (i : Nat) : (v.loaded i).ip i = v.dinode i := by
  rw [Vol.ip, Vol.loaded, Vol.setEntry_itable, if_pos rfl]

theorem Vol.Idle.loaded_ptr (h : v.Idle) (i : Nat) : (v.loaded i).ptr = v.ptr := by
  funext ⟨j, p⟩
  have hcur : (v.loaded i).cur j = v.dinode j := by
    by_cases hj : j = i
    · rw [hj, Vol.cur_active (v.loaded_active i), v.loaded_ip]
    · refine if_neg fun ha => absurd ha.1 ?_
      rw [Vol.loaded, Vol.setEntry_itable, if_neg hj, h j]
      exact lt_irrefl 0
  rw [Vol.ptr, hcur, h.ptr]
  rfl

theorem iget_idle (h : v.Idle) (i : Nat) :
    Ensures (iget i) v (fun _ w => w = v.setEntry i ⟨1, false, v.ip i⟩) E := by
  unfold iget
  apply Ensures.bind_get
  dsimp only
  rw [if_neg (by rw [h i]; exact lt_irrefl 0), if_neg (by rw [h.entries]; decide)]
  exact .set rfl

theorem ilock_load (ht : (v.dinode i).type ≠ .free) (n : Dinode) :
    Ensures (ilock i) (v.setEntry i ⟨1, false, n⟩) (fun _ w => w = v.loaded i) E := by
  have hentry : (v.setEntry i ⟨1, false, n⟩).itable i = ⟨1, false, n⟩ := by
    rw [Vol.setEntry_itable, if_pos rfl]
  have hdin : (v.setEntry i ⟨1, false, n⟩).dinode i = v.dinode i := rfl
  unfold ilock
  apply Ensures.bind_get
  simp only [hentry, lt_irrefl, if_false, Bool.false_eq_true]
  apply Ensures.bind_set
  rw [hdin, if_neg ht]
  refine .pure ?_
  simp [Vol.loaded, Vol.setEntry]

theorem reclaim_orphan (h : v.BlocksOwned) (hi : v.Idle) (ht : (v.dinode i).type ≠ .free)
    (hn : (v.dinode i).nlink = 0) :
    Ensures (do iget i; ilock i; iput i) v (fun _ w => w = (v.loaded i).gone i) E := by
  refine (iget_idle hi i).seq ?_
  rintro _ _ rfl
  refine (ilock_load ht _).seq ?_
  rintro _ _ rfl
  have hentry : (v.loaded i).itable i = ⟨1, true, v.dinode i⟩ := by
    rw [Vol.loaded, Vol.setEntry_itable, if_pos rfl]
  have howned : (v.loaded i).BlocksOwned := by
    unfold Vol.BlocksOwned
    rw [hi.loaded_ptr]
    exact h
  refine iput_gone howned (by rwa [v.loaded_ip]) ?_
  rw [hentry]
  exact ⟨rfl, rfl, hn⟩

theorem Reclaimed.gone (h : Reclaimed S v w) (hv : v.Idle) (hi : ¬S i) (ht : (w.dinode i).type ≠ .free) :
    Reclaimed (fun j => S j ∨ j = i) v ((w.loaded i).gone i) := by
  have ha := w.loaded_active i
  have ht' : ((w.loaded i).ip i).type ≠ .free := by rwa [w.loaded_ip]
  have hptr := h.idle.loaded_ptr i
  have howned : (w.loaded i).BlocksOwned := by
    unfold Vol.BlocksOwned
    rw [hptr]
    exact h.owned
  refine ⟨fun j => ?_, howned.without ha ht' rfl rfl ((w.loaded i).gone_ptr i), h.blk, h.bounds,
    fun j hj => ?_, fun j hj => ?_, fun b => ?_⟩
  · by_cases hj : j = i
    · rw [hj, Vol.gone_itable_self, Vol.loaded, Vol.setEntry_itable, if_pos rfl]
      exact Nat.sub_self 1
    · rw [Vol.gone_itable hj, Vol.loaded, Vol.setEntry_itable, if_neg hj, h.idle j]
  · by_cases hji : j = i
    · rw [hji, Vol.gone_dinode_self]
    · rw [Vol.gone_dinode hji]
      exact h.freed j (hj.resolve_right hji)
  · rw [not_or] at hj
    rw [Vol.gone_dinode hj.2]
    exact h.others j hj.1
  · have hsame : ∀ p, w.ptr (i, p) = v.ptr (i, p) := by
      intro p
      rw [h.idle.ptr, hv.ptr, h.others i hi, h.blk]
    have hbit : ((w.loaded i).gone i).bit b = true ↔ w.bit b = true ∧
        ∀ x : Nat × Place, x.1 = i → w.ptr x ≠ some b := hptr ▸ Vol.cleared_bit ha ht' b
    rw [hbit, h.bit, and_assoc]
    refine and_congr_right fun _ => ?_
    constructor
    · rintro ⟨hS, hmine⟩ j p (hj | rfl)
      · exact hS j p hj
      · rw [← hsame]
        exact hmine (j, p) rfl
    · intro hall
      refine ⟨fun j p hj => hall j p (.inl hj), ?_⟩
      rintro ⟨j, p⟩ rfl
      rw [hsame]
      exact hall j p (.inr rfl)

theorem reclaimInode_ensures (h : Reclaimed S v w) (hv : v.Idle) {inum : Nat} (hlo : 0 < inum)
    (hhi : inum < v.ninodes) :
    Ensures (reclaimInode inum) w
      (fun _ u => Reclaimed (fun j => S j ∨ (j = inum ∧ v.Orphan inum)) v u) E := by
  unfold reclaimInode
  apply Ensures.bind_get
  split_ifs with horphan
  · have hnew : ¬S inum := fun hs => horphan.1 (h.freed inum hs)
    rw [h.others inum hnew] at horphan
    refine (reclaim_orphan h.owned h.idle (h.others inum hnew ▸ horphan.1)
      (h.others inum hnew ▸ horphan.2)).post ?_
    rintro _ _ rfl
    refine (h.gone hv hnew (h.others inum hnew ▸ horphan.1)).congr fun j => ?_
    exact or_congr_right (and_iff_left ⟨hlo, hhi, horphan⟩).symm
  · refine .pure (h.congr fun j => ⟨.inl, ?_⟩)
    rintro (hj | ⟨rfl, -, -, ht, hn⟩)
    · exact hj
    · by_contra hnew
      rw [h.others j hnew] at horphan
      exact horphan ⟨ht, hn⟩

theorem reclaimRounds_ensures (h : Reclaimed S v w) (hv : v.Idle) {k : Nat} (hk : k ≤ v.ninodes - 1) :
    Ensures (reclaimRounds k) w (fun _ u => Reclaimed (fun j => S j ∨ (j ≤ k ∧ v.Orphan j)) v u) E := by
  refine Ensures.forM_range (fun n => reclaimInode (n + 1))
    (fun n u => Reclaimed (fun j => S j ∨ (j ≤ n ∧ v.Orphan j)) v u) k ?_ ?_
  · intro n u hn hu
    refine (reclaimInode_ensures hu hv (Nat.succ_pos n) (by omega)).post fun _ x hx => hx.congr fun j => ?_
    constructor
    · rintro ((hj | ⟨hle, ho⟩) | ⟨rfl, ho⟩)
      · exact .inl hj
      · exact .inr ⟨by omega, ho⟩
      · exact .inr ⟨le_rfl, ho⟩
    · rintro (hj | ⟨hle, ho⟩)
      · exact .inl (.inl hj)
      · rcases Nat.lt_or_eq_of_le hle with hlt | rfl
        · exact .inl (.inr ⟨by omega, ho⟩)
        · exact .inr ⟨rfl, ho⟩
  · refine h.congr fun j => ⟨.inl, ?_⟩
    rintro (hj | ⟨hle, ho⟩)
    · exact hj
    · exact absurd ho.1 (by omega)

/-- After any number of crashes some of the orphans are reclaimed, and nothing else has changed. -/
theorem Crashes.reclaimed (hc : Crashes v w) (h : v.BlocksOwned) (hv : v.Idle) :
    ∃ S, (∀ i, S i → v.Orphan i) ∧ Reclaimed S v w := by
  induction hc with
  | none => exact ⟨_, nofun, Reclaimed.start h hv⟩
  | crash _ hk hrun ih =>
    obtain ⟨S, hS, hw⟩ := ih
    rw [hw.bounds.2.2] at hk
    have hu := (reclaimRounds_ensures (E := fun _ _ => True) hw hv hk).ok hrun
    refine ⟨_, fun i hi => ?_, hu.reboot⟩
    rcases hi with hi | ⟨-, ho⟩
    · exact hS i hi
    · exact ho

/-- A disk with two orphans: the file 2 has the block 4, the file 3 is empty. -/
def orphanVol : Vol where
  size := 8
  nmeta := 4
  ninodes := 4
  bit b := b < 5
  blk _ _ := 0
  dinode i :=
    if i = 2 then ⟨.file, 0, 10, fun k => if k = 0 then 4 else 0⟩
    else if i = 3 then ⟨.file, 0, 0, fun _ => 0⟩ else Dinode.zero
  itable _ := ⟨0, false, Dinode.zero⟩

theorem orphanVol_idle : orphanVol.Idle := fun _ => rfl

theorem orphanVol_owned : orphanVol.BlocksOwned := by
  have hptr : orphanVol.ptr = update (fun _ => none) (2, .addr 0) (some 4) := by
    refine ptr_single orphanVol_idle.cur (by decide) (by decide) rfl fun j hj => ?_
    simp only [orphanVol, if_neg hj]
    split <;> rfl
  refine owned_single (by decide) hptr fun b => ?_
  have hbit : orphanVol.bit b = true ↔ b < 5 := decide_eq_true_iff
  have hmeta : orphanVol.nmeta = 4 := rfl
  rw [hbit, hmeta]
  omega

end Xv6.Blocks
