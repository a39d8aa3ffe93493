import Xv6.LogCommitSteps

namespace Xv6.LogSystem

open Xv6.Lib Xv6.BufferCache Xv6.LogCommit Function

variable {ι : Type} {base : Nat → Block} {s t : Sys ι} {p : ι}

/-- How the numbers of the operations relate the running operations, the open transaction
and the committed ones. -/
structure OpsOk (s : Sys ι) : Prop where
  fresh : ∀ p, (s.proc p).pc = .inOp → (s.proc p).op < s.nextOp
  logged : ∀ u ∈ s.txn, u.op < s.nextOp
  past : ∀ us ∈ s.history, ∀ u ∈ us, u.op < s.nextOp
  ended : ∀ us ∈ s.history, ∀ u ∈ us, ∀ p, (s.proc p).pc = .inOp → (s.proc p).op ≠ u.op
  open_apart : ∀ us ∈ s.history, ∀ u ∈ us, ∀ u' ∈ s.txn, u.op ≠ u'.op
  apart : s.history.Pairwise (fun us us' => ∀ u ∈ us, ∀ u' ∈ us', u.op ≠ u'.op)

structure Initial (base : Nat → Block) (s : Sys ι) : Prop where
  idle : ∀ p, (s.proc p).pc = .idle ∧ (s.proc p).io = .none ∧ (s.proc p).held = [] ∧ (s.proc p).dirty = []
  outstanding : s.k.log.outstanding = 0
  committing : s.k.log.committing = false
  empty : s.k.log.lh.n = 0
  head : headN (s.k.disk s.k.log.start) = 0
  disk : s.k.disk = base
  cache : Shared (fun _ => 0) (fun _ => False) (fun _ => False) (fun _ => 0) s.k.disk s.k
  txn : s.txn = []
  history : s.history = []

theorem Initial.ops (h : Initial base s) : OpsOk s := by
  refine ⟨?_, by simp [h.txn], by simp [h.history], by simp [h.history], by simp [h.history],
    by simp [h.history]⟩
  intro p hp
  simp [(h.idle p).1] at hp

variable [Fintype ι]

theorem Initial.inv (h : Initial base s) : Inv base s := by
  have hact : total Proc.active s.proc = 0 :=
    (total_eq_zero _ _).mpr (fun p => by simp [Proc.active, (h.idle p).1])
  have hcom : total Proc.commits s.proc = 0 :=
    (total_eq_zero _ _).mpr (fun p => by simp [Proc.commits, Pc.commits, (h.idle p).1])
  have hheader : ∀ block, HeaderOk s.k.log.start ⟨0, block⟩ := fun block => HeaderOk.empty block
  refine ⟨h.cache.congr ?_ ?_ ?_ ?_ ?_, ?_, ?_, ⟨?_, ?_, ?_, fun _ _ => h.empty⟩, ?_, ?_, ⟨?_, ?_, ?_⟩,
    ?_, fun _ => h.head⟩
  · intro i
    exact (total_eq_zero _ _).mpr (fun p => by
      obtain ⟨-, hio, hheld, -⟩ := h.idle p
      simp [Proc.refs, hio, Io.refs, hheld])
  · intro i
    simp [Sys.Locked, fun p => (h.idle p).2.2.1]
  · intro i
    simp [Sys.Dirty, fun p => (h.idle p).2.2.2]
  · intro b
    refine pin_eq_zero ?_
    rintro ⟨j, hj, -⟩
    have := h.empty
    omega
  · intro b
    simp [Sys.view, h.txn, h.history, applyUpdates, replay, h.disk]
  · intro p q i hi
    simp [(h.idle p).2.2.1] at hi
  · intro p
    obtain ⟨hpc, hio, hheld, hdirty⟩ := h.idle p
    exact ⟨by simp [hheld], by simp [hheld], by simp [hio], by simp [hdirty], by simp [hdirty],
      by simp [hpc]⟩
  · rw [hact, h.outstanding]
    rfl
  · rw [hcom, h.committing]
    rfl
  · simp [h.committing]
  · have hlh : s.k.log.lh = ⟨0, s.k.log.lh.block⟩ := by rw [← h.empty]
    rw [hlh]
    exact HeaderOk.empty _
  · simp [h.txn]
  · rw [h.head]
    exact HeaderOk.empty _
  · intro j hj
    rw [h.head] at hj
    omega
  · intro b _ _
    simp [h.history, replay, h.disk]
  · intro p c hc
    simp [(h.idle p).1] at hc

variable [DecidableEq ι]

/-- What a step does to the operations and to the number of logged blocks. -/
inductive OpEffect (s : Sys ι) (p : ι) (a : Act) : Sys ι → Prop where
  | move {k : Kernel} {pr : Proc} :
      (pr.pc = .inOp → (s.proc p).pc = .inOp ∧ pr.op = (s.proc p).op) → k.log.lh.n ≤ s.k.log.lh.n →
      OpEffect s p a (s.put p k pr)
  | start {k : Kernel} {pr : Proc} : pr.op = s.nextOp →
      k.log.lh.n + k.log.outstanding * maxOpBlocks ≤ logBlocks →
      OpEffect s p a { s.put p k pr with nextOp := s.nextOp + 1 }
  | log {k : Kernel} {pr : Proc} {i : Nat} {x : Block} {y : PUnit} : a = .logWrite i →
      (s.proc p).pc = .inOp → pr.pc = .inOp ∧ pr.op = (s.proc p).op → LogOps.logWrite i s.k = .ok y k →
      OpEffect s p a { s.put p k pr with txn := s.txn ++ [⟨(s.proc p).op, (s.k.buf i).blockno, x⟩] }
  | commit {k : Kernel} {pr : Proc} {c : CommitPc} : (s.proc p).pc = .committing c → pr.pc ≠ .inOp →
      OpEffect s p a { s.put p k pr with txn := [], history := s.history ++ [s.txn] }

theorem beginOp_space {k k' : Kernel} (h : LogOps.beginOp k = .ok true k') :
    k.log.lh.n + (k.log.outstanding + 1) * maxOpBlocks ≤ logBlocks := by
  simp only [LogOps.beginOp, bind_ok, get_ok] at h
  obtain ⟨_, _, ⟨rfl, rfl⟩, h⟩ := h
  split at h
  · exact absurd (pure_ok.mp h).1 (by decide)
  · split at h
    · exact absurd (pure_ok.mp h).1 (by decide)
    · omega

theorem Inv.step (h : Inv base s) {a : Act} (hs : step s p a = some t) :
    Inv base t ∧ OpEffect s p a t := by
  cases a with
  | beginOp =>
    obtain ⟨⟨-, hpc⟩, r, k, hrun, rfl⟩ := returned_if hs
    rcases LogOps.beginOp_ok hrun with ⟨rfl, rfl⟩ | ⟨rfl, hcom, rfl⟩
    · exact ⟨h.waitOp hpc, .move (by simp) le_rfl⟩
    · exact ⟨(h.admitOp hpc hcom s.nextOp).setNextOp _, .start rfl (beginOp_space hrun)⟩
  | bget b =>
    obtain ⟨⟨hio, hread⟩, i, k, hrun, rfl⟩ := returned_if hs
    obtain ⟨hinv, hl⟩ := h.bget hio hread hrun
    exact ⟨hinv, .move (fun hpc => ⟨hpc, rfl⟩) (by rw [hl])⟩
  | acquiresleep =>
    simp only [LogSystem.step] at hs
    split at hs
    · rename_i i hio
      obtain ⟨x, k, hrun, rfl⟩ := returned_map hs
      obtain ⟨-, rfl⟩ := acquiresleep_ok.mp hrun
      exact ⟨h.acquiresleep hio hrun, .move (fun hpc => ⟨hpc, rfl⟩) le_rfl⟩
    · cases hs
  | fill =>
    simp only [LogSystem.step] at hs
    split at hs
    · rename_i i hio
      obtain ⟨x, k, hrun, rfl⟩ := returned_map hs
      obtain ⟨hinv, hl⟩ := h.fill hio hrun
      refine ⟨hinv, .move (fun hpc => ⟨?_, rfl⟩) (by rw [hl])⟩
      cases hq : (s.proc p).pc <;> simp_all [Pc.got]
    · cases hs
  | modify i x =>
    obtain ⟨⟨hio, hpc, hi, -⟩, y, k, hrun, rfl⟩ := returned_if hs
    obtain rfl := modify_ok.mp hrun
    exact ⟨h.modify hio hpc hi hrun, .move (fun _ => ⟨hpc, rfl⟩) le_rfl⟩
  | logWrite i =>
    obtain ⟨⟨hio, hpc, hi, hhome⟩, y, k, hrun, rfl⟩ := returned_if hs
    exact ⟨h.logWrite hio hpc hi hhome hrun, .log rfl hpc ⟨hpc, rfl⟩ hrun⟩
  | releasesleep i =>
    obtain ⟨⟨hio, hpc, hi, hd⟩, y, k, hrun, rfl⟩ := returned_if hs
    obtain rfl := modify_ok.mp hrun
    refine ⟨h.unlock hio hi hd hrun (s.proc p).pc Iff.rfl rfl (fun _ _ => Iff.rfl) (h.phase p) ?_,
      .move (fun hpc => ⟨hpc, rfl⟩) le_rfl⟩
    intro c hc
    rcases hpc with hpc | hpc <;> simp [hpc] at hc
  | brelseRef =>
    simp only [LogSystem.step] at hs
    split at hs
    · rename_i i hio
      obtain ⟨x, k, hrun, rfl⟩ := returned_map hs
      obtain ⟨hinv, hl⟩ := h.brelseRef hio hrun
      exact ⟨hinv, .move (fun hpc => ⟨hpc, rfl⟩) (by rw [hl])⟩
    · cases hs
  | endOp =>
    obtain ⟨⟨hio, hpc, hheld⟩, r, k, hrun, rfl⟩ := returned_if hs
    obtain ⟨-, ⟨rfl, hne, rfl⟩ | ⟨rfl, heq, rfl⟩⟩ := LogOps.endOp_ok hrun
    · exact ⟨h.leaveOp hpc hheld hne, .move (by simp) le_rfl⟩
    · exact ⟨h.lastOp hio hpc hheld heq, .move (by simp) le_rfl⟩
  | copy =>
    simp only [LogSystem.step] at hs
    split at hs
    · rename_i tail a b hio hpc
      obtain ⟨x, k, hrun, rfl⟩ := returned_map hs
      exact ⟨h.writeLog hio hpc hrun, .move (by simp) (copyBlock_ok hrun ▸ le_rfl)⟩
    · rename_i tail a b hio hpc
      obtain ⟨x, k, hrun, rfl⟩ := returned_map hs
      exact ⟨h.install hio hpc hrun, .move (by simp) (copyBlock_ok hrun ▸ le_rfl)⟩
    · rename_i a hio hpc
      obtain ⟨x, k, hrun, rfl⟩ := returned_map hs
      exact ⟨h.commitPoint hio hpc hrun, .commit hpc (by simp)⟩
    · rename_i a hio hpc
      obtain ⟨x, k, hrun, rfl⟩ := returned_map hs
      exact ⟨h.erase hio hpc hrun, .move (by simp) (storeHead_ok hrun ▸ le_rfl)⟩
    · cases hs
  | bunpin =>
    simp only [LogSystem.step] at hs
    split at hs
    · rename_i tail a b hio hpc
      obtain ⟨x, k, hrun, rfl⟩ := returned_map hs
      obtain rfl := bunpin_ok.mp hrun
      exact ⟨h.bunpin hio hpc hrun, .move (by simp) le_rfl⟩
    · cases hs
  | release =>
    simp only [LogSystem.step] at hs
    split at hs
    · rename_i c hio hpc
      obtain ⟨⟨i, c'⟩, hrel, hs⟩ := Option.bind_eq_some_iff.mp hs
      obtain ⟨x, k, hrun, rfl⟩ := returned_map hs
      obtain rfl := modify_ok.mp hrun
      exact ⟨h.release hio hpc hrel hrun, .move (by simp) le_rfl⟩
    · cases hs
  | clear =>
    simp only [LogSystem.step] at hs
    split at hs
    · rename_i hio hpc
      obtain ⟨x, k, hrun, rfl⟩ := returned_map hs
      obtain rfl := modify_ok.mp hrun
      exact ⟨h.clear hio hpc hrun, .move (by simp) h.header.nonneg⟩
    · cases hs
  | endCommit =>
    simp only [LogSystem.step] at hs
    split at hs
    · rename_i hio hpc
      obtain ⟨x, k, hrun, rfl⟩ := returned_map hs
      obtain rfl := modify_ok.mp hrun
      exact ⟨h.endCommit hpc hrun, .move (by simp) le_rfl⟩
    · cases hs

omit [Fintype ι] in
theorem put_inOp {k : Kernel} {pr : Proc} (hpr : pr.pc = .inOp → (s.proc p).pc = .inOp ∧ pr.op = (s.proc p).op)
    (q : ι) (hq : ((s.put p k pr).proc q).pc = .inOp) :
    (s.proc q).pc = .inOp ∧ ((s.put p k pr).proc q).op = (s.proc q).op := by
  obtain rfl | hqp := eq_or_ne q p
  · simpa [Sys.put] using hpr (by simpa [Sys.put] using hq)
  · simpa [Sys.put, hqp] using hq

omit [Fintype ι] in
theorem OpsOk.effect {a : Act} (h : OpsOk s) (he : OpEffect s p a t)
    (hno : ∀ c, (s.proc p).pc = .committing c → ∀ q, (s.proc q).pc ≠ .inOp) : OpsOk t := by
  cases he with
  | @move k pr hpr _ =>
    have hactive := put_inOp (k := k) hpr
    refine ⟨?_, h.logged, h.past, ?_, h.open_apart, h.apart⟩
    · intro q hq
      rw [(hactive q hq).2]
      exact h.fresh q (hactive q hq).1
    · intro us hus u hu q hq
      rw [(hactive q hq).2]
      exact h.ended us hus u hu q (hactive q hq).1
  | @start k pr hop _ =>
    refine ⟨?_, fun u hu => Nat.lt_succ_of_lt (h.logged u hu),
      fun us hus u hu => Nat.lt_succ_of_lt (h.past us hus u hu), ?_, h.open_apart, h.apart⟩
    · intro q hq
      obtain rfl | hqp := eq_or_ne q p
      · simp [Sys.put, hop]
      · simp only [Sys.put, update_of_ne hqp] at hq ⊢
        exact Nat.lt_succ_of_lt (h.fresh q hq)
    · intro us hus u hu q hq
      obtain rfl | hqp := eq_or_ne q p
      · have := h.past us hus u hu
        simp only [Sys.put, update_self, hop]
        omega
      · simp only [Sys.put, update_of_ne hqp] at hq ⊢
        exact h.ended us hus u hu q hq
  | @log k pr i x y _ hpc hpr _ =>
    have hactive := put_inOp (p := p) (k := k) fun _ => ⟨hpc, hpr.2⟩
    refine ⟨?_, ?_, h.past, ?_, ?_, h.apart⟩
    · intro q hq
      show ((s.put p k pr).proc q).op < s.nextOp
      rw [(hactive q hq).2]
      exact h.fresh q (hactive q hq).1
    · intro u' hu'
      rcases List.mem_append.mp hu' with hu' | hu'
      · exact h.logged u' hu'
      · obtain rfl := List.mem_singleton.mp hu'
        exact h.fresh p hpc
    · intro us hus u' hu' q hq
      show ((s.put p k pr).proc q).op ≠ u'.op
      rw [(hactive q hq).2]
      exact h.ended us hus u' hu' q (hactive q hq).1
    · intro us hus u' hu' u₁ hu₁
      rcases List.mem_append.mp hu₁ with hu₁ | hu₁
      · exact h.open_apart us hus u' hu' u₁ hu₁
      · obtain rfl := List.mem_singleton.mp hu₁
        exact (h.ended us hus u' hu' p hpc).symm
  | @commit k pr c hpc hpr =>
    have hnone : ∀ q, ((s.put p k pr).proc q).pc ≠ .inOp := by
      intro q
      obtain rfl | hqp := eq_or_ne q p
      · simpa [Sys.put] using hpr
      · simpa [Sys.put, hqp] using hno c hpc q
    refine ⟨fun q hq => absurd hq (hnone q), by simp, ?_, fun _ _ _ _ q hq => absurd hq (hnone q),
      by simp, ?_⟩
    · intro us hus u hu
      rcases List.mem_append.mp hus with hus | hus
      · exact h.past us hus u hu
      · obtain rfl := List.mem_singleton.mp hus
        exact h.logged u hu
    · refine List.pairwise_append.mpr ⟨h.apart, List.pairwise_singleton _ _, ?_⟩
      intro us hus us' hus' u hu u' hu'
      obtain rfl := List.mem_singleton.mp hus'
      exact h.open_apart us hus u hu u' hu'

def Durable.txn {start : Nat} {d w : Nat → Block} (h : Durable start d w) : Txn where
  start := start
  n := (headN (d start)).toNat
  block := headBlock (d start)
  new := fun i => w (headBlock (d start) i)
  old := w
  fits := by
    have := h.header.fits
    simp only at this
    omega
  distinct := fun i j hi hj => h.header.distinct i j (by simp only; omega) (by simp only; omega)
  outside := fun i hi => (h.header.home i (by simp only; omega)).1
  uint := fun i hi => (h.header.home i (by simp only; omega)).2

theorem Durable.committed {start : Nat} {d w : Nat → Block} (h : Durable start d w) :
    h.txn.Committed d := by
  have h0 : 0 ≤ headN (d start) := h.header.nonneg
  refine ⟨(Int.toNat_of_nonneg h0).symm, fun _ _ => rfl, fun i hi => h.log i ?_, fun b hb hn => ?_⟩
  · have : i < (headN (d start)).toNat := hi
    omega
  · refine h.home b hb (fun j hj he => hn ⟨j, ?_, he.symm⟩)
    show j < (headN (d start)).toNat
    omega

/-- After a crash the recovery restores exactly the durable contents. -/
theorem Durable.recovered {start : Nat} {d d' w : Nat → Block} (h : Durable start d w)
    (hd : CrashedRecoveries start d d') {u v : Kernel} (hb : Booted start d' u)
    (hv : recoverFromLog u = .ok ⟨⟩ v) (b : Nat) (hout : ¬ InLog start b) : v.disk b = w b := by
  have hsurv := (CrashedRecoveries.survives (T := h.txn) hd).2 (.inl h.committed)
  have hfin := ((recover_survives (T := h.txn) hb).2 hsurv).ok hv
  by_cases hh : h.txn.Home b
  · obtain ⟨i, hi, rfl⟩ := hh
    exact hfin.home i hi
  · exact hfin.others b hout hh

/-- A finite run of the processes from `s₀` to `s`, in any interleaving. -/
def Reaches (s₀ s : Sys ι) : Prop :=
  ∃ as, Run (fun s (a : ι × Act) => step s a.1 a.2) (fun _ _ => True) s₀ as s

theorem Initial.reaches {s₀ : Sys ι} (h : Initial base s₀) (hr : Reaches s₀ s) :
    Inv base s ∧ OpsOk s := by
  obtain ⟨as, hr⟩ := hr
  refine hr.invariant (I := fun s => Inv base s ∧ OpsOk s) ?_ ⟨h.inv, h.ops⟩
  rintro s ⟨p, a⟩ t ⟨hi, ho⟩ - hs
  obtain ⟨hi', he⟩ := hi.step hs
  exact ⟨hi', ho.effect he (fun c hc => (hi.protocol.of_committing hc).2.2.1)⟩

def Sys.Ended (s : Sys ι) (o : Nat) : Prop :=
  o < s.nextOp ∧ ∀ p, (s.proc p).pc = .inOp → (s.proc p).op ≠ o

/-- Only whole operations are committed, and that is what a crash at this moment leaves behind. -/
structure WholeOperations (base : Nat → Block) (s : Sys ι) : Prop where
  exclusive : s.k.log.committing = true → s.k.log.outstanding = 0
  outstanding : s.k.log.outstanding = (Finset.univ.filter (fun p => (s.proc p).pc = .inOp)).card
  empty : s.k.log.committing = false → s.k.log.outstanding = 0 → s.k.log.lh.n = 0
  noPanic : ∀ p, (s.proc p).pc = .inOp → ∀ e k, LogOps.endOp s.k ≠ .error e k
  durable : ∀ d u v, CrashedRecoveries s.k.log.start s.k.disk d → Booted s.k.log.start d u →
    recoverFromLog u = .ok ⟨⟩ v → ∀ b, ¬ InLog s.k.log.start b → v.disk b = replay base s.history b
  closing : s.k.log.committing = true → ∀ u ∈ s.txn, s.Ended u.op
  ended : ∀ us ∈ s.history, ∀ u ∈ us, s.Ended u.op
  unsplit : s.history.Pairwise (fun us us' => ∀ u ∈ us, ∀ u' ∈ us', u.op ≠ u'.op)
  unsplit_open : ∀ us ∈ s.history, ∀ u ∈ us, ∀ u' ∈ s.txn, u.op ≠ u'.op

theorem commits_whole_operations {s₀ : Sys ι} (h : Initial base s₀) (hr : Reaches s₀ s) :
    WholeOperations base s := by
  obtain ⟨hi, ho⟩ := h.reaches hr
  refine ⟨hi.protocol.exclusive, ?_, hi.protocol.empty, ?_, ?_, ?_, ?_, ho.apart, ho.open_apart⟩
  · rw [hi.protocol.outstanding]
    exact congrArg Nat.cast (total_ite (fun pr : Proc => pr.pc = .inOp) s.proc)
  · intro p hp e k he
    obtain ⟨-, hc, -⟩ := hi.protocol.of_inOp hp
    have := LogOps.endOp_ensures.error he
    simp [hc] at this
  · intro d u v hd hb hv b hout
    exact hi.durable.recovered hd hb hv b hout
  · intro hc u hu
    refine ⟨ho.logged u hu, fun p hp => ?_⟩
    obtain ⟨-, hc', -⟩ := hi.protocol.of_inOp hp
    simp [hc] at hc'
  · exact fun us hus u hu => ⟨ho.past us hus u hu, ho.ended us hus u hu⟩

def twoProcs : Sys Bool where
  k := boot 2 1 (fun _ _ => 0) 100
  proc := fun _ => ⟨.idle, .none, [], [], 0⟩
  nextOp := 0
  txn := []
  history := []

def breadActs (p : Bool) (b : Nat) : List (Bool × Act) :=
  [(p, .bget b), (p, .acquiresleep), (p, .fill)]

def releaseActs (p : Bool) : List (Bool × Act) := [(p, .release), (p, .brelseRef)]

def changeActs (p : Bool) (x : UInt8) : List (Bool × Act) :=
  [(p, .modify 0 (fun _ => x)), (p, .logWrite 0), (p, .releasesleep 0), (p, .brelseRef), (p, .endOp)]

/-- Both processes change block 40 in overlapping operations, and the second one commits. -/
def overlapping : List (Bool × Act) := List.flatten
  [[(false, .beginOp), (true, .beginOp)],
    breadActs false 40, changeActs false 7, breadActs true 40, changeActs true 8,
    breadActs true 3, breadActs true 40, [(true, .copy)], releaseActs true, releaseActs true,
    breadActs true 2, [(true, .copy)], releaseActs true,
    breadActs true 3, breadActs true 40, [(true, .copy), (true, .bunpin)], releaseActs true, releaseActs true,
    [(true, .clear)], breadActs true 2, [(true, .copy)], releaseActs true, [(true, .endCommit)]]

theorem shared_boot (start dev : Nat) (hdev : 0 ≠ dev) (d : Nat → Block) (power : Nat) :
    Shared (fun _ => 0) (fun _ => False) (fun _ => False) (fun _ => 0) d (boot start dev d power) := by
  have hno : ∀ i b, ¬ Holds (boot start dev d power) i b := fun i b hi => hdev hi.2.1
  exact ⟨fun i _ b hi => absurd hi (hno i b), fun i _ => by simp, by simp, fun i _ => by simp [boot],
    by simp, by simp, fun i b hi => absurd hi (hno i b), fun _ _ => rfl, by simp⟩

theorem twoProcs_initial : Initial (fun _ _ => 0) twoProcs :=
  ⟨fun _ => ⟨rfl, rfl, rfl, rfl⟩, rfl, rfl, rfl, rfl, rfl, shared_boot 2 1 (by decide) _ 100, rfl, rfl⟩

def afterOverlapping : Option (Sys Bool) :=
  outcome (fun s (a : Bool × Act) => step s a.1 a.2) (fun _ _ => True) twoProcs overlapping

theorem afterOverlapping_isSome : afterOverlapping.isSome = true := by decide +kernel

theorem reaches_afterOverlapping : Reaches twoProcs (afterOverlapping.get afterOverlapping_isSome) :=
  ⟨overlapping, Run.of_outcome afterOverlapping_isSome⟩

theorem commits_whole_operations_overlapping :
    WholeOperations (fun _ _ => 0) (afterOverlapping.get afterOverlapping_isSome) ∧
      (afterOverlapping.get afterOverlapping_isSome).history.map (·.map Update.op) = [[0, 1]] :=
  ⟨commits_whole_operations twoProcs_initial reaches_afterOverlapping, by decide +kernel⟩

end Xv6.LogSystem
