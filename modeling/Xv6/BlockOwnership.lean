import Xv6.BlockCalls
import Xv6.Lib.Transition

namespace Xv6.Blocks

open Xv6.Lib Function

variable {v w : Vol}

/-- Blocks are owned, an inode in memory is the stored one, and no file has a hole or is larger
than `MAXFILE` blocks. -/
abbrev Vol.WellFormed (v : Vol) : Prop := Sound none v

theorem call_ensures (h : v.WellFormed) (op : Op) (hop : op.Allowed v) :
    Ensures op.call v (fun _ w => w.WellFormed) Other := by
  have locked : ∀ (i : Nat) {α : Type} (m : V α),
      (∀ w, Sound none w → w.Active i → Ensures m w (fun _ u => Sound none u) Other) →
      Ensures (do ilock i; void m) v (fun _ w => Sound none w) Other := by
    intro i α m hm
    refine (ilock_ensures h i).seq ?_
    rintro _ w ⟨hw, -, ha⟩
    exact (hm w hw ha).seq fun _ _ hu => hu
  cases op with
  | iget i => exact (iget_ensures h i).post fun _ _ hw => hw.1
  | idup i => exact idup_ensures h hop
  | iput i => exact (iput_ensures h i).post fun _ _ hw => hw.1
  | ialloc type =>
    exact (ialloc_ensures h type).seq fun _ _ hw => hw.1
  | itrunc i =>
    refine (ilock_ensures h i).seq ?_
    rintro _ w ⟨hw, -, ha⟩
    exact (itrunc_ensures hw ha).post fun _ _ hu => hu.1
  | readi i dst off n =>
    refine locked i _ fun w hw ha => ?_
    refine (readi_ensures ha (hw.live i (Option.some_ne_none _) ha)
      (hw.full i (Option.some_ne_none _)) dst off n).post ?_
    rintro _ _ rfl
    exact hw
  | writei i src off n =>
    exact locked i _ fun w hw ha => (writei_ensures hw ha src off n).post fun _ _ hu => hu.1
  | dirlookup dp name =>
    exact locked dp _ fun w hw ha => (dirlookup_ensures hw ha name).post fun _ _ hu => hu.1
  | dirlink dp name inum =>
    exact locked dp _ fun w hw ha => (dirlink_ensures hw ha name inum).post fun _ _ hu => hu.1
  | unlink dp name =>
    exact (unlink_ensures h dp name).seq fun _ _ hw => hw
  | create dp name type =>
    exact (create_ensures h dp name type).seq fun _ _ hw => hw

theorem opStep_wellFormed (h : v.WellFormed) {op : Op} (hop : op.Allowed v) (hs : opStep v op = some w) :
    w.WellFormed := by
  have he := call_ensures h op hop
  unfold opStep at hs
  cases hm : op.call v with
  | ok a u =>
    rw [hm] at hs
    cases hs
    exact he.ok hm
  | error e u =>
    rw [hm] at hs
    cases hs

/-- From a well-formed state, whatever is run and wherever the disk fills up, every data block is named at most
once and in use exactly if it is named, and no operation frees a free block or leaves the map of a file. -/
theorem blocks_owned_in_runs {ops : List Op} (hv : v.WellFormed)
    (hr : Run opStep (fun v op => op.Allowed v) v ops w) :
    w.BlocksOwned ∧ w.WellFormed ∧ ∀ op : Op, op.Allowed w → Ensures op.call w (fun _ _ => True) Other := by
  have hw : w.WellFormed := hr.invariant (fun _ _ _ h hop hs => opStep_wellFormed h hop hs) hv
  exact ⟨hw.owned, hw, fun op hop => (call_ensures hw op hop).post fun _ _ _ => trivial⟩

theorem ptr_dinode (hidle : ∀ i, ¬ v.Active i) (i : Nat) (p : Place) :
    v.ptr (i, p) = (v.dinode i).ptr v.blk p := by
  simp only [Vol.ptr, Vol.cur, if_neg (hidle i)]

theorem ptr_none (hidle : ∀ i, ¬ v.Active i) (haddrs : ∀ i, (v.dinode i).addrs = fun _ => 0)
    (x : Nat × Place) : v.ptr x = none := by
  obtain ⟨i, p⟩ := x
  rw [ptr_dinode hidle]
  cases p <;> simp [Dinode.ptr, haddrs i]

theorem ptr_single {i b : Nat} (hcur : ∀ j, v.cur j = v.dinode j) (ht : (v.dinode i).type ≠ .free)
    (hb : b ≠ 0) (hi : (v.dinode i).addrs = fun k => if k = 0 then b else 0)
    (hothers : ∀ j, j ≠ i → (v.dinode j).addrs = fun _ => 0) :
    v.ptr = update (fun _ => none) (i, .addr 0) (some b) := by
  funext ⟨j, p⟩
  rw [Vol.ptr, hcur]
  obtain rfl | hj := eq_or_ne j i
  · cases p with
    | addr k => by_cases hk : k = 0 <;> simp [Dinode.ptr, hi, ht, hb, hk]
    | entry k => simp [Dinode.ptr, hi, ndirect]
  · rw [update_of_ne (fun he => hj (Prod.mk.inj he).1)]
    cases p <;> simp [Dinode.ptr, hothers j hj]

theorem owned_single {i b : Nat} (hb : ¬b < v.nmeta)
    (hptr : v.ptr = update (fun _ => none) (i, .addr 0) (some b))
    (hbit : ∀ c, v.bit c = true ↔ c = b ∨ c < v.nmeta) : v.BlocksOwned := by
  unfold Vol.BlocksOwned
  rw [hptr]
  exact (Owned.empty fun _ => Iff.rfl).fill rfl hb hbit

/-- A disk of eight blocks, four of them for data, with a root directory of `size` bytes that has
no blocks. -/
def freshVol (size : Nat) : Vol where
  size := 8
  nmeta := 4
  ninodes := 3
  bit b := b < 4
  blk _ _ := 0
  dinode i := if i = 1 then ⟨.dir, 1, size, fun _ => 0⟩ else Dinode.zero
  itable _ := ⟨0, false, Dinode.zero⟩

theorem freshVol_idle (size i : Nat) : ¬ (freshVol size).Active i := fun h => absurd h.1 (lt_irrefl 0)

theorem freshVol_ptr (size : Nat) (x : Nat × Place) : (freshVol size).ptr x = none := by
  refine ptr_none (freshVol_idle size) (fun i => ?_) x
  unfold freshVol
  dsimp only
  split <;> rfl

theorem freshVol_owned (size : Nat) : (freshVol size).BlocksOwned := by
  unfold Vol.BlocksOwned
  rw [funext (freshVol_ptr size)]
  exact Owned.empty fun b => decide_eq_true_iff

theorem freshVol_wellFormed : (freshVol 0).WellFormed := by
  refine ⟨freshVol_owned 0, fun i _ ha => absurd ha (freshVol_idle 0 i),
    fun i _ ha => absurd ha (freshVol_idle 0 i), fun i _ _ => ?_, by decide, by decide⟩
  have hsize : ((freshVol 0).cur i).size = 0 := by
    rw [Vol.cur, if_neg (freshVol_idle 0 i)]
    unfold freshVol
    dsimp only
    split <;> rfl
  rw [hsize]
  exact ⟨Nat.zero_le _, fun bn hbn => absurd hbn (Nat.not_lt_zero _)⟩

def oneLetter : CName := fun k => if k = 0 then 120 else 0

/-- A file is made, written until the disk is full, and removed. -/
theorem blocks_owned_in_runs_fullDisk : ∃ w,
    (w.BlocksOwned ∧ w.WellFormed ∧ ∀ op : Op, op.Allowed w → Ensures op.call w (fun _ _ => True) Other) ∧
    w.bit 4 = true ∧ w.bit 5 = false := by
  have hrun : ∃ w, Run opStep (fun v op => op.Allowed v) (freshVol 0) [.iget 1, .idup 1,
      .create 1 oneLetter .file, .writei 2 (.kernel fun _ => 1) 0 5000, .iput 2, .unlink 1 oneLetter] w ∧
      w.bit 4 = true ∧ w.bit 5 = false := Run.exists_of_outcome (by decide +kernel)
  obtain ⟨w, hr, hw⟩ := hrun
  exact ⟨w, blocks_owned_in_runs freshVol_wellFormed hr, hw⟩

def filledDir : Dinode := ⟨.dir, 1, 16, update (fun _ => 0) 0 4⟩

def leakedVol : Vol :=
  (((((freshVol 16).setEntry 1 ⟨1, false, Dinode.zero⟩).setEntry 1 ⟨1, true, (freshVol 16).dinode 1⟩).taken 4).setIp
    1 filledDir).setEntry 1 ⟨0, true, filledDir⟩

/-- Looking a name up in a directory with a hole allocates a block and never stores its number. -/
theorem hole_leaks_block : ∃ (v w : Vol) (ops : List Op), v.BlocksOwned ∧
    Run opStep (fun v op => op.Allowed v) v ops w ∧ ¬ w.BlocksOwned := by
  refine ⟨freshVol 16, leakedVol, [.iget 1, .unlink 1 oneLetter], freshVol_owned 16, ?_, fun h => ?_⟩
  · exact .cons trivial rfl (.cons trivial rfl (.nil _))
  · have hidle : ∀ i, ¬ leakedVol.Active i := by
      intro i hi
      obtain rfl | h1 := eq_or_ne i 1
      · exact absurd hi.1 (lt_irrefl 0)
      · have href : (leakedVol.itable i).ref = 0 := by
          simp [leakedVol, Vol.setEntry, Vol.setIp, Vol.taken, update_of_ne h1, freshVol]
        exact absurd hi.1 (by omega)
    have hnone : ∀ x, leakedVol.ptr x = none := by
      refine ptr_none hidle fun i => ?_
      show ((freshVol 16).dinode i).addrs = _
      unfold freshVol
      dsimp only
      split <;> rfl
    have hbit : leakedVol.bit 4 = true := rfl
    obtain hlt | ⟨x, hx⟩ := (h.used_iff 4).mp hbit
    · exact absurd hlt (lt_irrefl 4)
    · rw [hnone] at hx
      cases hx

/-- Blocks are owned in a state with a size above `MAXFILE` blocks too, and a read behind them leaves the map. -/
theorem oversize_leaves_map : ∃ v w : Vol, v.BlocksOwned ∧ Run opStep (fun v op => op.Allowed v) v [.iget 1] w ∧
    Ensures (Op.readi 1 .kernel 274432 16).call w (fun _ _ => False) (fun e _ => e = "bmap: out of range") :=
  ⟨freshVol 274448, (freshVol 274448).setEntry 1 ⟨1, false, Dinode.zero⟩, freshVol_owned _,
    .cons trivial rfl (.nil _), by decide +kernel⟩

end Xv6.Blocks
