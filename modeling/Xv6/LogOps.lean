import Xv6.LogCommit
import Xv6.BufferSharing

namespace Xv6.LogOps

open Xv6.Lib Xv6.BufferCache Function

/-- One pass of the loop in `begin_op`: `true` when the operation is admitted, `false`
when the process goes to sleep on the log and will try again. -/
def beginOp : K Bool := do
  let s ← get
  if s.log.committing then return false
  else if s.log.lh.n + (s.log.outstanding + 1) * maxOpBlocks > logBlocks then return false
  else
    modify fun s => { s with log := { s.log with outstanding := s.log.outstanding + 1 } }
    return true

def endOp : K Bool := do
  modify fun s => { s with log := { s.log with outstanding := s.log.outstanding - 1 } }
  let s ← get
  if s.log.committing then throw (.panic "log.committing")
  else if s.log.outstanding = 0 then
    modify fun s => { s with log := { s.log with committing := true } }
    return true
  else return false

def endCommit : K PUnit :=
  modify fun s => { s with log := { s.log with committing := false } }

/-- Where `log_write` records block `b`: the entry that already names it, or the next one. -/
def slot (lh : LogHeader) (b : Nat) : Nat :=
  ((List.range lh.n.toNat).find? (fun i => lh.block i == b)).getD lh.n.toNat

def logWrite (i : Nat) : K PUnit := do
  let s ← get
  if s.log.lh.n ≥ logBlocks then throw (.panic "too big a transaction")
  else if s.log.outstanding < 1 then throw (.panic "log_write outside of trans")
  else
    let b := (s.buf i).blockno
    let j := slot s.log.lh b
    modify fun s => { s with log := { s.log with lh := { s.log.lh with
      block := update s.log.lh.block j b } } }
    if j = s.log.lh.n then
      bpin i
      modify fun s => { s with log := { s.log with lh := { s.log.lh with n := s.log.lh.n + 1 } } }

variable {s t : Kernel} {i : Nat}

theorem beginOp_ok {r : Bool} (h : beginOp s = .ok r t) :
    (r = false ∧ s = t) ∨ (r = true ∧ s.log.committing = false ∧
      { s with log := { s.log with outstanding := s.log.outstanding + 1 } } = t) := by
  simp only [beginOp, bind_ok, get_ok] at h
  obtain ⟨_, _, ⟨rfl, rfl⟩, h⟩ := h
  split at h
  · exact .inl ((pure_ok.mp h).imp Eq.symm id)
  · rename_i hc
    split at h
    · exact .inl ((pure_ok.mp h).imp Eq.symm id)
    · simp only [bind_ok, modify_ok, pure_ok] at h
      obtain ⟨_, _, rfl, rfl, rfl⟩ := h
      exact .inr ⟨rfl, by simpa using hc, rfl⟩

theorem endOp_ok {r : Bool} (h : endOp s = .ok r t) :
    s.log.committing = false ∧
      ((r = false ∧ s.log.outstanding - 1 ≠ 0 ∧
        { s with log := { s.log with outstanding := s.log.outstanding - 1 } } = t) ∨
      (r = true ∧ s.log.outstanding - 1 = 0 ∧ { s with log := { s.log with
        outstanding := s.log.outstanding - 1, committing := true } } = t)) := by
  simp only [endOp, bind_ok, get_ok, modify_ok] at h
  obtain ⟨_, _, rfl, _, _, ⟨rfl, rfl⟩, h⟩ := h
  split at h
  · simp only [throw_ok] at h
  · rename_i hc
    refine ⟨by simpa using hc, ?_⟩
    split at h
    · rename_i ho
      simp only [bind_ok, modify_ok, pure_ok] at h
      obtain ⟨_, _, rfl, rfl, rfl⟩ := h
      exact .inr ⟨rfl, ho, rfl⟩
    · rename_i ho
      obtain ⟨rfl, rfl⟩ := pure_ok.mp h
      exact .inl ⟨rfl, ho, rfl⟩

theorem endOp_ensures :
    Ensures endOp s (fun _ _ => True) (fun _ _ => s.log.committing = true) := by
  unfold endOp
  apply Ensures.bind_modify
  apply Ensures.bind_get
  split
  · rename_i hc
    exact .throw hc
  · split
    · apply Ensures.bind_modify
      exact .pure trivial
    · exact .pure trivial

theorem slot_cases (lh : LogHeader) (b : Nat) :
    (slot lh b < lh.n.toNat ∧ lh.block (slot lh b) = b) ∨
      (slot lh b = lh.n.toNat ∧ ∀ j, j < lh.n.toNat → lh.block j ≠ b) := by
  unfold slot
  cases hf : (List.range lh.n.toNat).find? (fun i => lh.block i == b) with
  | none =>
    refine .inr ⟨rfl, fun j hj => ?_⟩
    simpa using List.find?_eq_none.mp hf j (List.mem_range.mpr hj)
  | some j =>
    exact .inl ⟨List.mem_range.mp (List.mem_of_find?_eq_some hf), by simpa using List.find?_some hf⟩

theorem logWrite_ok {x : PUnit} (h : logWrite i s = .ok x t) (h0 : 0 ≤ s.log.lh.n) :
    s.log.lh.n < logBlocks ∧ 1 ≤ s.log.outstanding ∧
      (((∃ j : Nat, (j : Int) < s.log.lh.n ∧ s.log.lh.block j = (s.buf i).blockno) ∧ s = t) ∨
      ((∀ j : Nat, (j : Int) < s.log.lh.n → s.log.lh.block j ≠ (s.buf i).blockno) ∧
        { s with
          buf := update s.buf i { s.buf i with refcnt := (s.buf i).refcnt + 1 }
          log := { s.log with lh := ⟨s.log.lh.n + 1,
            update s.log.lh.block s.log.lh.n.toNat (s.buf i).blockno⟩ } } = t)) := by
  simp only [logWrite, bind_ok, get_ok] at h
  obtain ⟨_, _, ⟨rfl, rfl⟩, h⟩ := h
  split at h
  · simp only [throw_ok] at h
  rename_i hn
  split at h
  · simp only [throw_ok] at h
  rename_i ho
  refine ⟨by omega, by omega, ?_⟩
  simp only [bind_ok, modify_ok] at h
  obtain ⟨_, _, rfl, h⟩ := h
  rcases slot_cases s.log.lh (s.buf i).blockno with ⟨hj, hb⟩ | ⟨hj, hb⟩
  · rw [if_neg (by omega)] at h
    obtain ⟨-, rfl⟩ := pure_ok.mp h
    refine .inl ⟨⟨slot s.log.lh (s.buf i).blockno, by omega, hb⟩, ?_⟩
    rw [update_eq_iff.mpr ⟨hb.symm, fun _ _ => rfl⟩]
  · rw [if_pos (by omega)] at h
    simp only [bpin, setBuf, bind_ok, get_ok, modify_ok] at h
    obtain ⟨_, _, ⟨_, _, ⟨rfl, rfl⟩, rfl⟩, rfl⟩ := h
    refine .inr ⟨fun j hjn => hb j (by omega), ?_⟩
    rw [hj]

end Xv6.LogOps
