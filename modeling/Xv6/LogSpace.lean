import Mathlib.Algebra.BigOperators.Ring.Finset
import Xv6.LogAtomicity

namespace Xv6.LogSystem

open Xv6.Lib Xv6.BufferCache Xv6.LogCommit

section Header

variable {s : Kernel} {i : Nat}

theorem logWrite_ensures (h : s.log.lh.n < logBlocks) (ho : 1 ≤ s.log.outstanding) :
    Completes (LogOps.logWrite i) s (fun _ _ => True) := by
  unfold LogOps.logWrite
  apply Ensures.bind_get
  rw [if_neg (by omega), if_neg (by omega)]
  apply Ensures.bind_modify
  split
  · exact trivial
  · exact trivial

end Header

variable {ι : Type} {base : Nat → Block} {s t : Sys ι} {p : ι}

/-- The blocks operation `o` has logged in the open transaction. -/
def Sys.share (s : Sys ι) (o : Nat) : Finset Nat := ((s.txn.filter (·.op = o)).map Update.block).toFinset

theorem share_fresh (h : OpsOk s) {o : Nat} (ho : s.nextOp ≤ o) : s.share o = ∅ := by
  have hnil : s.txn.filter (·.op = o) = [] := by
    refine List.filter_eq_nil_iff.mpr (fun u hu => ?_)
    have := h.logged u hu
    simp only [decide_eq_true_eq]
    omega
  simp [Sys.share, hnil]

theorem share_snoc {txn : List Update} {u : Update} (ht : t.txn = txn ++ [u]) (hs : s.txn = txn) (o : Nat) :
    t.share o = if u.op = o then insert u.block (s.share o) else s.share o := by
  unfold Sys.share
  rw [ht, hs, List.filter_append]
  split
  · next hu => simp [hu, Finset.union_comm]
  · next hu => simp [hu]

variable [Fintype ι]

/-- How many blocks a running operation may still log. -/
def Sys.left (s : Sys ι) (p : ι) : Nat :=
  if (s.proc p).pc = .inOp then maxOpBlocks - (s.share (s.proc p).op).card else 0

def Act.logged : Act → Option Nat
  | .logWrite i => some i
  | _ => none

/-- A call of `log_write` that keeps its operation within `MAXOPBLOCKS` blocks. -/
def WithinShare (s : Sys ι) (x : ι × Act) : Prop :=
  ∀ i ∈ x.2.logged, (insert (s.k.buf i).blockno (s.share (s.proc x.1).op)).card ≤ maxOpBlocks

/-- A call of `log_write` for a block its operation has not logged yet, or while the log has room
for another block. -/
def NewOrRoom (s : Sys ι) (x : ι × Act) : Prop :=
  ∀ i ∈ x.2.logged, (s.k.buf i).blockno ∉ s.share (s.proc x.1).op ∨ s.k.log.lh.n < logBlocks

/-- The log has room for what the running operations may still log. -/
structure Reserved (s : Sys ι) : Prop where
  space : s.k.log.lh.n + ((∑ p, s.left p : Nat) : Int) ≤ logBlocks
  within : ∀ p, (s.proc p).pc = .inOp → (s.share (s.proc p).op).card ≤ maxOpBlocks
  apart : ∀ p q, (s.proc p).pc = .inOp → (s.proc q).pc = .inOp → (s.proc p).op = (s.proc q).op → p = q

theorem listed_of_share (h : Inv base s) {o b : Nat} (hb : b ∈ s.share o) :
    ∃ j : Nat, (j : Int) < s.k.log.lh.n ∧ s.k.log.lh.block j = b := by
  simp only [Sys.share, List.mem_toFinset, List.mem_map, List.mem_filter] at hb
  obtain ⟨u, ⟨hu, -⟩, rfl⟩ := hb
  exact h.listed u hu

theorem Reserved.quiet (hno : ∀ p, (s.proc p).pc ≠ .inOp) (hn : s.k.log.lh.n ≤ logBlocks) : Reserved s := by
  have hzero : ∑ p, s.left p = 0 := Finset.sum_eq_zero (fun p _ => if_neg (hno p))
  refine ⟨?_, fun p hp => absurd hp (hno p), fun p _ hp => absurd hp (hno p)⟩
  rw [hzero]
  simpa using hn

structure LogSpaceOk (s : Sys ι) : Prop where
  fits : 0 ≤ s.k.log.lh.n ∧ s.k.log.lh.n ≤ logBlocks
  distinct : ∀ i j : Nat, (i : Int) < s.k.log.lh.n → (j : Int) < s.k.log.lh.n →
    s.k.log.lh.block i = s.k.log.lh.block j → i = j
  writes : ∀ p i, (s.proc p).pc = .inOp → WithinShare s (p, .logWrite i) → NewOrRoom s (p, .logWrite i) →
    ∀ e k, LogOps.logWrite i s.k ≠ .error e k

theorem Reserved.logSpaceOk (h : Reserved s) (hi : Inv base s) : LogSpaceOk s := by
  refine ⟨⟨hi.header.nonneg, hi.header.fits⟩, hi.header.distinct, ?_⟩
  intro p i hpc hw hr e k he
  have hroom : s.k.log.lh.n < logBlocks := by
    obtain hnew | hroom := hr i rfl
    · have hw : (insert (s.k.buf i).blockno (s.share (s.proc p).op)).card ≤ maxOpBlocks := hw i rfl
      have hnew : (s.k.buf i).blockno ∉ s.share (s.proc p).op := hnew
      rw [Finset.card_insert_of_notMem hnew] at hw
      have hleft : s.left p = maxOpBlocks - (s.share (s.proc p).op).card := if_pos hpc
      have hsum := Finset.single_le_sum (f := s.left) (fun _ _ => Nat.zero_le _) (Finset.mem_univ p)
      have := h.space
      omega
    · exact hroom
  have hout := (hi.protocol.of_inOp hpc).1
  exact (logWrite_ensures hroom (by omega)).error he

theorem Initial.reserved (h : Initial base s) : Reserved s := by
  refine Reserved.quiet (fun p hp => ?_) ?_
  · rw [(h.idle p).1] at hp
    cases hp
  · rw [h.empty]
    decide

variable [DecidableEq ι]

instance (s : Sys ι) (x : ι × Act) : Decidable (WithinShare s x) :=
  inferInstanceAs (Decidable (∀ i ∈ x.2.logged, _ ≤ _))

instance (s : Sys ι) (x : ι × Act) : Decidable (NewOrRoom s x) :=
  inferInstanceAs (Decidable (∀ i ∈ x.2.logged, _ ∨ _))

theorem Reserved.move (h : Reserved s) {k : Kernel} {pr : Proc}
    (hpr : pr.pc = .inOp → (s.proc p).pc = .inOp ∧ pr.op = (s.proc p).op)
    (hn : k.log.lh.n ≤ s.k.log.lh.n) : Reserved (s.put p k pr) := by
  have hold := put_inOp (k := k) hpr
  have hshare : ∀ o, (s.put p k pr).share o = s.share o := fun _ => rfl
  refine ⟨?_, ?_, ?_⟩
  · have hleft : ∑ q, (s.put p k pr).left q ≤ ∑ q, s.left q := by
      refine Finset.sum_le_sum (fun q _ => ?_)
      unfold Sys.left
      split
      · next hq => rw [if_pos (hold q hq).1, (hold q hq).2, hshare]
      · exact Nat.zero_le _
    have := h.space
    simp only [Sys.put] at hleft ⊢
    omega
  · intro q hq
    rw [(hold q hq).2, hshare]
    exact h.within q (hold q hq).1
  · intro q r hq hr he
    rw [(hold q hq).2, (hold r hr).2] at he
    exact h.apart q r (hold q hq).1 (hold r hr).1 he

theorem Reserved.start (h : Reserved s) (ho : OpsOk s) {k : Kernel} {pr : Proc} (hop : pr.op = s.nextOp)
    (ht : Inv base { s.put p k pr with nextOp := s.nextOp + 1 })
    (hspace : k.log.lh.n + k.log.outstanding * maxOpBlocks ≤ logBlocks) :
    Reserved { s.put p k pr with nextOp := s.nextOp + 1 } := by
  generalize hx : ({ s.put p k pr with nextOp := s.nextOp + 1 } : Sys ι) = x at ht
  have hshare : ∀ o, x.share o = s.share o := fun _ => hx ▸ rfl
  have hp : (x.proc p).op = s.nextOp := by
    rw [← hx]
    simp [Sys.put, hop]
  have hother : ∀ q, q ≠ p → x.proc q = s.proc q := by
    intro q hq
    rw [← hx]
    simp [Sys.put, hq]
  refine ⟨?_, ?_, ?_⟩
  · have hleft : ∑ q, x.left q ≤ ∑ q, (x.proc q).active * maxOpBlocks := by
      refine Finset.sum_le_sum (fun q _ => ?_)
      unfold Sys.left Proc.active
      split
      · omega
      · omega
    have hout := ht.protocol.outstanding
    rw [← Finset.sum_mul] at hleft
    have hk : x.k = k := hx ▸ rfl
    unfold total at hout
    rw [hk] at hout ⊢
    rw [hout] at hspace
    have : ((∑ q, x.left q : Nat) : Int) ≤ (∑ q, (x.proc q).active : Nat) * maxOpBlocks := by
      exact_mod_cast hleft
    omega
  · intro q hq
    rw [hshare]
    by_cases hqp : q = p
    · rw [hqp, hp, share_fresh ho le_rfl]
      simp
    · rw [hother q hqp] at hq ⊢
      exact h.within q hq
  · intro q r hq hr he
    by_cases hqp : q = p <;> by_cases hrp : r = p
    · exact hqp.trans hrp.symm
    · rw [hqp, hp, hother r hrp] at he
      rw [hother r hrp] at hr
      exact absurd (ho.fresh r hr) (by omega)
    · rw [hrp, hp, hother q hqp] at he
      rw [hother q hqp] at hq
      exact absurd (ho.fresh q hq) (by omega)
    · rw [hother q hqp] at hq he
      rw [hother r hrp] at hr he
      exact h.apart q r hq hr he

theorem Reserved.log (h : Reserved s) (hi : Inv base s) {k : Kernel} {pr : Proc} {i : Nat} {x : Block}
    {y : PUnit} (hpc : (s.proc p).pc = .inOp) (hpr : pr.pc = .inOp ∧ pr.op = (s.proc p).op)
    (hrun : LogOps.logWrite i s.k = .ok y k) (hw : WithinShare s (p, .logWrite i)) :
    Reserved { s.put p k pr with txn := s.txn ++ [⟨(s.proc p).op, (s.k.buf i).blockno, x⟩] } := by
  generalize ht : ({ s.put p k pr with
    txn := s.txn ++ [⟨(s.proc p).op, (s.k.buf i).blockno, x⟩] } : Sys ι) = t
  have hproc : ∀ q, (t.proc q).pc = (s.proc q).pc ∧ (t.proc q).op = (s.proc q).op := by
    intro q
    rw [← ht]
    obtain rfl | hq := eq_or_ne q p
    · simp [Sys.put, hpr, hpc]
    · simp [Sys.put, hq]
  have htxn : t.txn = s.txn ++ [⟨(s.proc p).op, (s.k.buf i).blockno, x⟩] := by rw [← ht]
  have hshare : ∀ o, t.share o =
      if (s.proc p).op = o then insert (s.k.buf i).blockno (s.share o) else s.share o :=
    share_snoc htxn rfl
  have hother : ∀ q, q ≠ p → t.left q = s.left q := by
    intro q hq
    unfold Sys.left
    rw [(hproc q).1, (hproc q).2]
    split
    · next hqi => rw [hshare, if_neg (fun he => hq (h.apart p q hpc hqi he).symm)]
    · rfl
  have hself : t.left p = maxOpBlocks - (insert (s.k.buf i).blockno (s.share (s.proc p).op)).card := by
    rw [Sys.left, (hproc p).1, (hproc p).2, if_pos hpc, hshare, if_pos rfl]
  have hold : s.left p = maxOpBlocks - (s.share (s.proc p).op).card := if_pos hpc
  refine ⟨?_, ?_, ?_⟩
  · have hsum := sum_change (Finset.mem_univ p) (f := s.left) (g := t.left) (fun q _ hq => hother q hq)
    have hspace := h.space
    have hw := hw i rfl
    have hk : t.k = k := ht ▸ rfl
    rw [hk]
    obtain ⟨-, -, ⟨-, rfl⟩ | ⟨hnew, rfl⟩⟩ := LogOps.logWrite_ok hrun hi.header.nonneg
    · have hcard := Finset.card_le_card (Finset.subset_insert (s.k.buf i).blockno (s.share (s.proc p).op))
      omega
    · have hfresh : (s.k.buf i).blockno ∉ s.share (s.proc p).op := by
        intro hb
        obtain ⟨j, hj, he⟩ := listed_of_share hi hb
        exact hnew j hj he
      rw [Finset.card_insert_of_notMem hfresh] at hself hw
      simp only
      omega
  · intro q hq
    rw [(hproc q).1] at hq
    rw [(hproc q).2, hshare]
    split
    · next he => exact he ▸ hw i rfl
    · exact h.within q hq
  · intro q r hq hr he
    rw [(hproc q).1] at hq
    rw [(hproc r).1] at hr
    rw [(hproc q).2, (hproc r).2] at he
    exact h.apart q r hq hr he

theorem Reserved.step (h : Reserved s) (hi : Inv base s) (ho : OpsOk s) {a : Act}
    (hs : step s p a = some t) (hw : WithinShare s (p, a)) : Reserved t := by
  obtain ⟨hit, he⟩ := hi.step hs
  cases he with
  | move hpr hn => exact h.move hpr hn
  | start hop hspace => exact h.start ho hop hit hspace
  | log ha hpc hpr hrun => exact h.log hi hpc hpr hrun (ha ▸ hw)
  | @commit k pr c hpc hpr =>
    refine Reserved.quiet (fun q hq => ?_) hit.header.fits
    obtain rfl | hqp := eq_or_ne q p
    · exact hpr (by simpa [Sys.put] using hq)
    · exact (hi.protocol.of_committing hpc).2.2.1 q (by simpa [Sys.put, hqp] using hq)

/-- As long as no operation logs a block again while the log is full, the space check of `begin_op`
is enough for every operation within its share. -/
theorem log_space_reserved {s₀ : Sys ι} {as : List (ι × Act)} (h : Initial base s₀)
    (hr : Run (fun s (x : ι × Act) => step s x.1 x.2) (fun s x => WithinShare s x ∧ NewOrRoom s x) s₀ as s) :
    LogSpaceOk s := by
  have hinv : (Inv base s ∧ OpsOk s) ∧ Reserved s := by
    refine hr.invariant (I := fun s => (Inv base s ∧ OpsOk s) ∧ Reserved s) ?_
      ⟨⟨h.inv, h.ops⟩, h.reserved⟩
    rintro s ⟨p, a⟩ t ⟨⟨hi, ho⟩, hres⟩ ⟨hw, -⟩ hs
    obtain ⟨hi', he⟩ := hi.step hs
    exact ⟨⟨hi', ho.effect he (fun c hc => (hi.protocol.of_committing hc).2.2.1)⟩, hres.step hi ho hs hw⟩
  exact hinv.2.logSpaceOk hinv.1.1

def threeProcs : Sys (Fin 3) where
  k := boot 2 1 (fun _ _ => 0) 100
  proc := fun _ => ⟨.idle, .none, [], [], 0⟩
  nextOp := 0
  txn := []
  history := []

theorem threeProcs_initial : Initial (fun _ _ => 0) threeProcs :=
  ⟨fun _ => ⟨rfl, rfl, rfl, rfl⟩, rfl, rfl, rfl, rfl, rfl, shared_boot 2 1 (by decide) _ 100, rfl, rfl⟩

def logActs (p : Fin 3) (i : Nat) : List (Fin 3 × Act) :=
  [(p, .bget (100 + i)), (p, .acquiresleep), (p, .fill), (p, .logWrite i)]

/-- Three operations at the same time, each of which logs `MAXOPBLOCKS` blocks. -/
def fullShares : List (Fin 3 × Act) :=
  [(0, .beginOp), (1, .beginOp), (2, .beginOp)] ++
    (List.range 30).flatMap (fun i => logActs (Fin.ofNat 3 i) i)

theorem log_space_reserved_fullShares : ∃ s : Sys (Fin 3),
    LogSpaceOk s ∧ s.k.log.lh.n = logBlocks ∧ (s.proc 2).pc = .inOp := by
  have hrun : ∃ s, Run (fun s (x : Fin 3 × Act) => step s x.1 x.2)
      (fun s x => WithinShare s x ∧ NewOrRoom s x) threeProcs fullShares s ∧
      s.k.log.lh.n = logBlocks ∧ (s.proc 2).pc = .inOp := Run.exists_of_outcome (by decide +kernel)
  obtain ⟨s, hr, hn⟩ := hrun
  exact ⟨s, log_space_reserved threeProcs_initial hr, hn⟩

def panics {α : Type} (m : K α) (k : Kernel) (msg : String) : Bool :=
  match m k with
  | .error (.panic e) _ => e = msg
  | _ => false

/-- Once the three operations have filled the log, logging a block again is fatal: the limit is
checked before the block is looked for. -/
theorem full_log_panics : ∃ (s : Sys (Fin 3)) (as : List (Fin 3 × Act)),
    Run (fun s (x : Fin 3 × Act) => step s x.1 x.2) WithinShare threeProcs as s ∧
    (s.proc 2).pc = .inOp ∧ 29 ∈ (s.proc 2).held ∧ WithinShare s (2, .logWrite 29) ∧
    panics (LogOps.logWrite 29) s.k "too big a transaction" = true := by
  have hrun : ∃ s, Run (fun s (x : Fin 3 × Act) => step s x.1 x.2) WithinShare threeProcs fullShares s ∧
      (s.proc 2).pc = .inOp ∧ 29 ∈ (s.proc 2).held ∧ WithinShare s (2, .logWrite 29) ∧
      panics (LogOps.logWrite 29) s.k "too big a transaction" = true :=
    Run.exists_of_outcome (by decide +kernel)
  obtain ⟨s, hr, hs⟩ := hrun
  exact ⟨s, fullShares, hr, hs⟩

end Xv6.LogSystem
