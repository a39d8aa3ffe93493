import Xv6.LogSystem

namespace Xv6.LogSystem

open Xv6.Lib Xv6.BufferCache Xv6.LogCommit Function

def Io.refs (i : Nat) : Io → Nat
  | .acquiring j => if i = j then 1 else 0
  | .releasing j => if i = j then 1 else 0
  | _ => 0

def Io.fills : Io → List Nat
  | .filling i => [i]
  | _ => []

def Proc.refs (i : Nat) (pr : Proc) : Nat := pr.io.refs i + pr.held.count i

def Proc.active (pr : Proc) : Nat := if pr.pc = .inOp then 1 else 0

def Pc.commits : Pc → Nat
  | .committing _ => 1
  | _ => 0

def Proc.commits (pr : Proc) : Nat := pr.pc.commits

def CommitPc.Installed (j : Nat) : CommitPc → Prop
  | .loop true tail (.ready _ _) => j ≤ tail
  | .loop true tail (.last _) => j ≤ tail
  | .loop true tail _ => j < tail
  | .clear => True
  | _ => False

def Pc.Installed (j : Nat) : Pc → Prop
  | .committing c => c.Installed j
  | _ => False

variable {ι : Type}

def Sys.refs [Fintype ι] (s : Sys ι) (i : Nat) : Nat := total (Proc.refs i) s.proc

def Sys.Locked (s : Sys ι) (i : Nat) : Prop := ∃ p, i ∈ (s.proc p).held

def Sys.Dirty (s : Sys ι) (i : Nat) : Prop := ∃ p, i ∈ (s.proc p).dirty

def Sys.Pinned (s : Sys ι) (b : Nat) : Prop :=
  ∃ j : Nat, (j : Int) < s.k.log.lh.n ∧ s.k.log.lh.block j = b ∧ ∀ p, ¬ (s.proc p).pc.Installed j

open Classical in
noncomputable def Sys.pin (s : Sys ι) (b : Nat) : Nat := if s.Pinned b then 1 else 0

def applyUpdates (us : List Update) (d : Nat → Block) : Nat → Block :=
  us.foldl (fun d u => update d u.block u.data) d

def replay (base : Nat → Block) (history : List (List Update)) : Nat → Block :=
  history.foldl (fun d us => applyUpdates us d) base

/-- The contents a reader of a block should see. -/
def Sys.view (base : Nat → Block) (s : Sys ι) (b : Nat) : Block :=
  if InLog s.k.log.start b then s.k.disk b else applyUpdates s.txn (replay base s.history) b

structure HeaderOk (start : Nat) (lh : LogHeader) : Prop where
  nonneg : 0 ≤ lh.n
  fits : lh.n ≤ logBlocks
  distinct : ∀ i j : Nat, (i : Int) < lh.n → (j : Int) < lh.n → lh.block i = lh.block j → i = j
  home : ∀ j : Nat, (j : Int) < lh.n → HomeBlock start (lh.block j)

/-- The log and the home blocks on disk together determine the contents `w`. -/
structure Durable (start : Nat) (d w : Nat → Block) : Prop where
  header : HeaderOk start ⟨headN (d start), headBlock (d start)⟩
  log : ∀ j : Nat, (j : Int) < headN (d start) → d (start + j + 1) = w (headBlock (d start) j)
  home : ∀ b, ¬ InLog start b → (∀ j : Nat, (j : Int) < headN (d start) → headBlock (d start) j ≠ b) →
    d b = w b

/-- The header on disk lists the blocks of the header in memory. -/
structure HeadOnDisk (lg : Log) (d : Nat → Block) : Prop where
  n : headN (d lg.start) = lg.lh.n
  block : ∀ j : Nat, (j : Int) < lg.lh.n → headBlock (d lg.start) j = lg.lh.block j

/-- The first `m` log blocks hold the contents `v` of the blocks the header lists. -/
def LogHas (lg : Log) (d v : Nat → Block) (m : Nat) : Prop :=
  ∀ j, j < m → d (lg.start + j + 1) = v (lg.lh.block j)

def LoopStage.written (tail : Nat) : LoopStage → Nat
  | .ready _ _ => tail + 1
  | .last _ => tail + 1
  | _ => tail

/-- What the disk holds while a commit is at a given point. -/
def CommitPc.Phase (lg : Log) (d v : Nat → Block) (txn : List Update) : CommitPc → Prop
  | .loop false tail st => headN (d lg.start) = 0 ∧ LogHas lg d v (st.written tail)
  | .loop true tail (.copied _ _) =>
    txn = [] ∧ HeadOnDisk lg d ∧ LogHas lg d v lg.lh.n.toNat ∧ d (lg.lh.block tail) = v (lg.lh.block tail)
  | .loop true _ _ => txn = [] ∧ HeadOnDisk lg d ∧ LogHas lg d v lg.lh.n.toNat
  | .clear => txn = []
  | .head false (.ready _) => txn = [] ∧ HeadOnDisk lg d ∧ LogHas lg d v lg.lh.n.toNat
  | .head false _ => headN (d lg.start) = 0 ∧ LogHas lg d v lg.lh.n.toNat
  | .head true (.ready _) => txn = [] ∧ lg.lh.n = 0 ∧ headN (d lg.start) = 0
  | .head true _ => txn = [] ∧ lg.lh.n = 0
  | .finished => txn = [] ∧ lg.lh.n = 0 ∧ headN (d lg.start) = 0

def CommitPc.bufs (lg : Log) : CommitPc → List (Nat × Nat)
  | .loop _ tail (.one a) => [(a, lg.start + tail + 1)]
  | .loop _ tail (.two a b) => [(b, lg.lh.block tail), (a, lg.start + tail + 1)]
  | .loop _ tail (.copied a b) => [(b, lg.lh.block tail), (a, lg.start + tail + 1)]
  | .loop _ tail (.ready a b) => [(b, lg.lh.block tail), (a, lg.start + tail + 1)]
  | .loop false tail (.last c) => [(c, lg.start + tail + 1)]
  | .loop true tail (.last c) => [(c, lg.lh.block tail)]
  | .head _ (.one a) => [(a, lg.start)]
  | .head _ (.ready a) => [(a, lg.start)]
  | _ => []

structure StageOk (k : Kernel) (pr : Proc) (c : CommitPc) : Prop where
  held : pr.held = pr.io.fills ++ (c.bufs k.log).map Prod.fst
  holds : ∀ x ∈ c.bufs k.log, Holds k x.1 x.2
  reads : ∀ i, pr.io = .acquiring i ∨ pr.io = .filling i →
    ∃ b, c.wants k.log = some b ∧ Holds k i b
  bound : ∀ inst tail st, c = .loop inst tail st → (tail : Int) < k.log.lh.n

structure ProcOk (k : Kernel) (pr : Proc) : Prop where
  nodup : pr.held.Nodup
  valid : ∀ i ∈ pr.held, pr.io ≠ .filling i → (k.buf i).valid = true
  filling : ∀ i, pr.io = .filling i → i ∈ pr.held
  dirty : ∀ i ∈ pr.dirty, i ∈ pr.held
  changing : pr.dirty ≠ [] → pr.pc = .inOp
  stage : ∀ c, pr.pc = .committing c → StageOk k pr c

/-- How `outstanding` and `committing` count the processes. -/
structure Protocol [Fintype ι] (s : Sys ι) : Prop where
  outstanding : s.k.log.outstanding = total Proc.active s.proc
  committing : total Proc.commits s.proc = if s.k.log.committing then 1 else 0
  exclusive : s.k.log.committing = true → s.k.log.outstanding = 0
  empty : s.k.log.committing = false → s.k.log.outstanding = 0 → s.k.log.lh.n = 0

structure Inv [Fintype ι] (base : Nat → Block) (s : Sys ι) : Prop where
  cache : Shared s.refs s.Locked s.Dirty s.pin (s.view base) s.k
  excl : ∀ p q i, i ∈ (s.proc p).held → i ∈ (s.proc q).held → p = q
  procs : ∀ p, ProcOk s.k (s.proc p)
  protocol : Protocol s
  header : HeaderOk s.k.log.start s.k.log.lh
  listed : ∀ u ∈ s.txn, ∃ j : Nat, (j : Int) < s.k.log.lh.n ∧ s.k.log.lh.block j = u.block
  durable : Durable s.k.log.start s.k.disk (replay base s.history)
  phase : ∀ p c, (s.proc p).pc = .committing c → c.Phase s.k.log s.k.disk (s.view base) s.txn
  quiet : s.k.log.committing = false → headN (s.k.disk s.k.log.start) = 0

section Put

variable [DecidableEq ι] {s : Sys ι} {p : ι} {k : Kernel} {r : Proc} {i : Nat}

theorem refs_put [Fintype ι] {a b : Nat} (h : r.refs i + a = (s.proc p).refs i + b) :
    (s.put p k r).refs i + a = s.refs i + b := by
  have := total_update (Proc.refs i) s.proc p r
  simp only [Sys.refs, Sys.put]
  omega

theorem locked_put : (s.put p k r).Locked i ↔ i ∈ r.held ∨ ∃ q, q ≠ p ∧ i ∈ (s.proc q).held :=
  exists_update_iff s.proc (fun _ r => i ∈ r.held)

theorem dirty_put : (s.put p k r).Dirty i ↔ i ∈ r.dirty ∨ ∃ q, q ≠ p ∧ i ∈ (s.proc q).dirty :=
  exists_update_iff s.proc (fun _ r => i ∈ r.dirty)

theorem locked_self (s : Sys ι) (p : ι) (i : Nat) :
    s.Locked i ↔ i ∈ (s.proc p).held ∨ ∃ q, q ≠ p ∧ i ∈ (s.proc q).held := by
  have := locked_put (s := s) (p := p) (k := s.k) (r := s.proc p) (i := i)
  rwa [Sys.put, update_eq_self] at this

theorem dirty_self (s : Sys ι) (p : ι) (i : Nat) :
    s.Dirty i ↔ i ∈ (s.proc p).dirty ∨ ∃ q, q ≠ p ∧ i ∈ (s.proc q).dirty := by
  have := dirty_put (s := s) (p := p) (k := s.k) (r := s.proc p) (i := i)
  rwa [Sys.put, update_eq_self] at this

theorem locked_put_same (h : r.held = (s.proc p).held) : (s.put p k r).Locked i ↔ s.Locked i := by
  rw [locked_put, locked_self s p, h]

theorem dirty_put_same (h : r.dirty = (s.proc p).dirty) : (s.put p k r).Dirty i ↔ s.Dirty i := by
  rw [dirty_put, dirty_self s p, h]

theorem locked_put_cons {j : Nat} (h : r.held = j :: (s.proc p).held) :
    (s.put p k r).Locked i ↔ s.Locked i ∨ i = j := by
  rw [locked_put, locked_self s p, h, List.mem_cons, or_assoc, or_comm]

theorem locked_put_erase {j : Nat} (h : r.held = (s.proc p).held.erase j)
    (hn : (s.proc p).held.Nodup) (hj : ∀ q, q ≠ p → j ∉ (s.proc q).held) :
    (s.put p k r).Locked i ↔ s.Locked i ∧ i ≠ j := by
  rw [locked_put, locked_self s p, h, hn.mem_erase_iff]
  constructor
  · rintro (⟨hne, hi⟩ | ⟨q, hq, hi⟩)
    · exact ⟨.inl hi, hne⟩
    · exact ⟨.inr ⟨q, hq, hi⟩, fun he => hj q hq (he ▸ hi)⟩
  · rintro ⟨hi | hi, hne⟩
    · exact .inl ⟨hne, hi⟩
    · exact .inr hi

theorem dirty_put_filter {j : Nat} (h : r.dirty = (s.proc p).dirty.filter (· ≠ j))
    (hj : ∀ q, q ≠ p → j ∉ (s.proc q).dirty) : (s.put p k r).Dirty i ↔ s.Dirty i ∧ i ≠ j := by
  rw [dirty_put, dirty_self s p, h, List.mem_filter, decide_eq_true_eq]
  constructor
  · rintro (⟨hi, hne⟩ | ⟨q, hq, hi⟩)
    · exact ⟨.inl hi, hne⟩
    · exact ⟨.inr ⟨q, hq, hi⟩, fun he => hj q hq (he ▸ hi)⟩
  · rintro ⟨hi | hi, hne⟩
    · exact .inl ⟨hi, hne⟩
    · exact .inr hi

end Put

section Kept

variable {refs : Nat → Nat} {k k' : Kernel} {pr : Proc} {lg lg' : Log}

theorem CommitPc.bufs_congr (hs : lg'.start = lg.start) (hl : lg'.lh = lg.lh)
    (c : CommitPc) : c.bufs lg' = c.bufs lg := by
  unfold CommitPc.bufs
  split <;> simp only [hs, hl]

theorem CommitPc.wants_congr (hs : lg'.start = lg.start) (hl : lg'.lh = lg.lh)
    (c : CommitPc) : c.wants lg' = c.wants lg := by
  unfold CommitPc.wants
  split <;> simp only [hs, hl]

theorem mem_held_refs {i : Nat} (h : i ∈ pr.held) : 0 < pr.refs i :=
  Nat.add_pos_right _ (List.count_pos_iff.mpr h)

theorem ProcOk.kept (h : ProcOk k pr) (hk : Kept refs k k') (hr : ∀ i, 0 < pr.refs i → 0 < refs i)
    (hlog : ∀ c, pr.pc = .committing c → k'.log.start = k.log.start ∧ k'.log.lh = k.log.lh) :
    ProcOk k' pr := by
  refine ⟨h.nodup, ?_, h.filling, h.dirty, h.changing, ?_⟩
  · intro i hi hf
    exact hk.valid i (hr i (mem_held_refs hi)) (h.valid i hi hf)
  · intro c hc
    obtain ⟨hheld, hholds, hreads, hbound⟩ := h.stage c hc
    obtain ⟨hs, hl⟩ := hlog c hc
    have hmem : ∀ x ∈ c.bufs k.log, x.1 ∈ pr.held := by
      intro x hx
      rw [hheld]
      exact List.mem_append_right _ (List.mem_map_of_mem hx)
    refine ⟨by rw [hheld, CommitPc.bufs_congr hs hl], ?_, ?_, by rw [hl]; exact hbound⟩
    · intro x hx
      rw [CommitPc.bufs_congr hs hl] at hx
      exact hk.holds _ _ (hr _ (mem_held_refs (hmem x hx))) (hholds x hx)
    · intro i hi
      obtain ⟨b, hw, hib⟩ := hreads i hi
      refine ⟨b, by rw [CommitPc.wants_congr hs hl]; exact hw, hk.holds i b (hr i ?_) hib⟩
      rcases hi with hi | hi
      · simp [Proc.refs, hi, Io.refs]
      · exact mem_held_refs (h.filling i hi)

end Kept

section Steps

variable {base : Nat → Block} {s : Sys ι} {p : ι} {k : Kernel} {pr : Proc}
  {b i : Nat}

theorem pin_eq_one (h : s.Pinned b) : s.pin b = 1 := if_pos h

theorem pin_eq_zero (h : ¬ s.Pinned b) : s.pin b = 0 := if_neg h

theorem Sys.pin_congr {t : Sys ι} (hl : t.k.log.lh = s.k.log.lh)
    (hinst : ∀ j : Nat, (j : Int) < s.k.log.lh.n →
      ((∀ q, ¬ (t.proc q).pc.Installed j) ↔ ∀ q, ¬ (s.proc q).pc.Installed j)) (b : Nat) :
    t.pin b = s.pin b := by
  have hiff : t.Pinned b ↔ s.Pinned b := by
    unfold Sys.Pinned
    rw [hl]
    constructor
    · rintro ⟨j, hj, hb, hn⟩
      exact ⟨j, hj, hb, (hinst j hj).mp hn⟩
    · rintro ⟨j, hj, hb, hn⟩
      exact ⟨j, hj, hb, (hinst j hj).mpr hn⟩
  by_cases hb : s.Pinned b
  · rw [pin_eq_one hb, pin_eq_one (hiff.mpr hb)]
  · rw [pin_eq_zero hb, pin_eq_zero (fun hb' => hb (hiff.mp hb'))]

variable [Fintype ι]

theorem refs_pos (q : ι) (h : 0 < (s.proc q).refs i) : 0 < s.refs i :=
  lt_of_lt_of_le h (le_total (Proc.refs i) s.proc q)

theorem Inv.not_held (h : Inv base s) (hi : i ∈ (s.proc p).held) (q : ι) (hq : q ≠ p) :
    i ∉ (s.proc q).held :=
  fun hiq => hq (h.excl q p i hiq hi)

variable [DecidableEq ι]

omit [Fintype ι] in
theorem pin_put (hl : k.log.lh = s.k.log.lh) (hinst : ∀ j : Nat, (j : Int) < s.k.log.lh.n →
    (pr.pc.Installed j ↔ (s.proc p).pc.Installed j)) (b : Nat) : (s.put p k pr).pin b = s.pin b := by
  refine Sys.pin_congr hl (fun j hj => ?_) b
  show (∀ q, ¬ (update s.proc p pr q).pc.Installed j) ↔ _
  rw [forall_update_iff s.proc (fun _ pr => ¬ pr.pc.Installed j), hinst j hj]
  constructor
  · rintro ⟨h1, h2⟩ q
    by_cases hq : q = p
    · exact hq ▸ h1
    · exact h2 q hq
  · exact fun h => ⟨h p, fun q _ => h q⟩

omit [Fintype ι] in
theorem excl_put (h : ∀ q r i, i ∈ (s.proc q).held → i ∈ (s.proc r).held → q = r)
    (hp : ∀ q, q ≠ p → ∀ i ∈ pr.held, i ∉ (s.proc q).held) (q r : ι) (i : Nat)
    (hq : i ∈ ((s.put p k pr).proc q).held) (hr : i ∈ ((s.put p k pr).proc r).held) : q = r := by
  by_cases hqp : q = p <;> by_cases hrp : r = p
  · exact hqp.trans hrp.symm
  · subst hqp
    simp only [Sys.put, update_self, update_of_ne hrp] at hq hr
    exact absurd hr (hp r hrp i hq)
  · subst hrp
    simp only [Sys.put, update_self, update_of_ne hqp] at hq hr
    exact absurd hq (hp q hqp i hr)
  · simp only [Sys.put, update_of_ne hqp, update_of_ne hrp] at hq hr
    exact h q r i hq hr

theorem CommitPc.Phase.congr {lg lg' : Log} {d v v' : Nat → Block} {txn : List Update} {c : CommitPc}
    (h : c.Phase lg d v txn) (hs : lg'.start = lg.start) (hl : lg'.lh = lg.lh) (hv : v' = v) :
    c.Phase lg' d v' txn := by
  subst hv
  have hh : HeadOnDisk lg d → HeadOnDisk lg' d :=
    fun h => ⟨by rw [hs, hl]; exact h.n, by rw [hs, hl]; exact h.block⟩
  have hlog : ∀ m, LogHas lg d v' m → LogHas lg' d v' m := by
    intro m h
    unfold LogHas
    rw [hs, hl]
    exact h
  unfold CommitPc.Phase at h ⊢
  split at h
  · exact ⟨hs ▸ h.1, hlog _ h.2⟩
  · exact ⟨h.1, hh h.2.1, hlog _ (hl ▸ h.2.2.1), hl ▸ h.2.2.2⟩
  · exact ⟨h.1, hh h.2.1, hlog _ (hl ▸ h.2.2)⟩
  · exact h
  · exact ⟨h.1, hh h.2.1, hlog _ (hl ▸ h.2.2)⟩
  · exact ⟨hs ▸ h.1, hlog _ (hl ▸ h.2)⟩
  · exact ⟨h.1, hl ▸ h.2.1, hs ▸ h.2.2⟩
  · exact ⟨h.1, hl ▸ h.2⟩
  · exact ⟨h.1, hl ▸ h.2.1, hs ▸ h.2.2⟩

theorem Inv.put (h : Inv base s) (hkept : Kept s.refs s.k k)
    (hcache : Shared (s.put p k pr).refs (s.put p k pr).Locked (s.put p k pr).Dirty s.pin
      (s.view base) k)
    (hdisk : k.disk = s.k.disk) (hs : k.log.start = s.k.log.start) (hl : k.log.lh = s.k.log.lh)
    (hproto : Protocol (s.put p k pr)) (hproc : ProcOk k pr)
    (hexcl : ∀ q, q ≠ p → ∀ i ∈ pr.held, i ∉ (s.proc q).held)
    (hinst : ∀ j : Nat, (j : Int) < s.k.log.lh.n →
      (pr.pc.Installed j ↔ (s.proc p).pc.Installed j))
    (hphase : ∀ c, pr.pc = .committing c → c.Phase s.k.log s.k.disk (s.view base) s.txn)
    (hquiet : k.log.committing = false → headN (s.k.disk s.k.log.start) = 0) :
    Inv base (s.put p k pr) := by
  have hview : (s.put p k pr).view base = s.view base := by
    funext b
    simp only [Sys.view, Sys.put, hs, hdisk]
  have hpin : (s.put p k pr).pin = s.pin := funext (pin_put hl hinst)
  refine ⟨?_, excl_put h.excl hexcl, ?_, hproto, ?_, ?_, ?_, ?_, ?_⟩
  · rw [hview, hpin]
    exact hcache
  · intro q
    obtain rfl | hqp := eq_or_ne q p
    · simpa only [Sys.put, update_self] using hproc
    · simp only [Sys.put, update_of_ne hqp]
      exact (h.procs q).kept hkept (fun i hi => refs_pos q hi) (fun _ _ => ⟨hs, hl⟩)
  · simp only [Sys.put, hl, hs]
    exact h.header
  · simp only [Sys.put, hl]
    exact h.listed
  · simp only [Sys.put, hs, hdisk]
    exact h.durable
  · intro q c hc
    rw [hview]
    have hp : c.Phase s.k.log s.k.disk (s.view base) s.txn := by
      obtain rfl | hqp := eq_or_ne q p
      · simp only [Sys.put, update_self] at hc
        exact hphase c hc
      · simp only [Sys.put, update_of_ne hqp] at hc
        exact h.phase q c hc
    simp only [Sys.put, hdisk]
    exact hp.congr hs hl rfl
  · simp only [Sys.put, hs, hdisk]
    exact hquiet

theorem Protocol.put (h : Protocol s) (hl : k.log = s.k.log)
    (ha : pr.active = (s.proc p).active) (hc : pr.commits = (s.proc p).commits) :
    Protocol (s.put p k pr) := by
  have h1 : total Proc.active (s.put p k pr).proc = total Proc.active s.proc := by
    have := total_update Proc.active s.proc p pr
    simp only [Sys.put]
    omega
  have h2 : total Proc.commits (s.put p k pr).proc = total Proc.commits s.proc := by
    have := total_update Proc.commits s.proc p pr
    simp only [Sys.put]
    omega
  refine ⟨?_, ?_, ?_, ?_⟩
  · rw [h1]
    simpa only [Sys.put, hl] using h.outstanding
  · rw [h2]
    simpa only [Sys.put, hl] using h.committing
  · simpa only [Sys.put, hl] using h.exclusive
  · simpa only [Sys.put, hl] using h.empty

end Steps

end Xv6.LogSystem
