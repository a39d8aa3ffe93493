import Xv6.LogOps
import Xv6.MonitorSteps

namespace Xv6.LogWait

open Xv6.Lib Xv6.Threads Xv6.BufferCache Function

/-- The log with the numbers of the operations in progress. -/
structure State extends Log where
  ops : List Nat
  nextOp : Nat

def State.boot (start dev : Nat) (block : Nat → Nat) : State where
  start := start
  outstanding := 0
  committing := false
  dev := dev
  lh := { n := 0, block := block }
  ops := []
  nextOp := 0

def State.tight (d : State) : Prop := d.lh.n + (d.outstanding + 1) * maxOpBlocks > logBlocks

instance (d : State) : Decidable d.tight := inferInstanceAs (Decidable (_ > _))

/-- The positions in an operation: `begin_op`, any number of calls of `log_write`, and `end_op`, which
may `commit`. -/
inductive Position where
  | beginCall
  | beginHead
  | beginSleep
  | beginRelease (op : Nat)
  | working (op : Nat)
  | writeCall (op b : Nat)
  | write (op b : Nat)
  | writeRelease (op : Nat)
  | endCall (op : Nat)
  | endCount (op : Nat)
  | endWake
  | endRelease (doCommit : Bool)
  | commit
  | clear
  | commitCall
  | commitEnd
  | commitWake
  | done
  | panic (msg : String)
  deriving DecidableEq

def State.admitOp (d : State) : State :=
  { d with
    outstanding := d.outstanding + 1
    ops := d.nextOp :: d.ops
    nextOp := d.nextOp + 1 }

def State.record (d : State) (b : Nat) : State :=
  let i := LogOps.slot d.lh b
  { d with lh :=
    { n := if i = d.lh.n then d.lh.n + 1 else d.lh.n
      block := update d.lh.block i b } }

def State.leave (d : State) (op : Nat) : State :=
  { d with
    outstanding := d.outstanding - 1
    ops := d.ops.erase op }

/-- The choice in `X` is the next block to log, or to end the operation. The reads and writes of the disk
in `commit` do not use the log's fields. -/
def code : Position → Instr Unit Unit Position State (Option Nat)
  | .beginCall => .acquire () .beginHead
  | .beginHead => .access fun _ d =>
      if d.committing then (d, .beginSleep)
      else if d.tight then (d, .beginSleep)
      else (d.admitOp, .beginRelease d.nextOp)
  | .beginSleep => .sleep () () .beginHead
  | .beginRelease op => .release () (.working op)
  | .working op => .access fun v d => (d,
      match v with
      | some b => .writeCall op b
      | none => .endCall op)
  | .writeCall op b => .acquire () (.write op b)
  | .write op b => .access fun _ d =>
      if d.lh.n ≥ logBlocks then (d, .panic "too big a transaction")
      else if d.outstanding < 1 then (d, .panic "log_write outside of trans")
      else (d.record b, .writeRelease op)
  | .writeRelease op => .release () (.working op)
  | .endCall op => .acquire () (.endCount op)
  | .endCount op => .access fun _ d =>
      if d.committing then (d.leave op, .panic "log.committing")
      else if (d.leave op).outstanding = 0 then ({ d.leave op with committing := true }, .endRelease true)
      else (d.leave op, .endWake)
  | .endWake => .wakeup () (.endRelease false)
  | .endRelease doCommit => .release () (if doCommit then .commit else .done)
  | .commit => .access fun _ d => (d, if d.lh.n > 0 then .clear else .commitCall)
  | .clear => .access fun _ d => ({ d with lh := { d.lh with n := 0 } }, .commitCall)
  | .commitCall => .acquire () .commitEnd
  | .commitEnd => .access fun _ d => ({ d with committing := false }, .commitWake)
  | .commitWake => .wakeup () (.endRelease false)
  | .done => .ret
  | .panic msg => .access fun _ d => (d, .panic msg)

def Calls {κ : Type} : κ × Op Position (Option Nat) → Prop
  | (_, .syscall x) => x = .beginCall
  | (_, .intr _) => False
  | _ => True

instance {κ : Type} (a : κ × Op Position (Option Nat)) : Decidable (Calls a) := by
  unfold Calls
  split <;> infer_instance

def Position.op : Position → Option Nat
  | .beginRelease op => some op
  | .working op => some op
  | .writeCall op _ => some op
  | .write op _ => some op
  | .writeRelease op => some op
  | .endCall op => some op
  | .endCount op => some op
  | _ => none

def Position.commits : Position → Bool
  | .endRelease doCommit => doCommit
  | .commit => true
  | .clear => true
  | .commitCall => true
  | .commitEnd => true
  | _ => false

def Position.cleared : Position → Bool
  | .commitCall => true
  | .commitEnd => true
  | _ => false

structure Ok (d : State) : Prop where
  nonneg : 0 ≤ d.lh.n
  count : d.outstanding = d.ops.length
  nodup : d.ops.Nodup
  lt : ∀ op ∈ d.ops, op < d.nextOp
  alone : d.committing = true → d.ops = []
  idle : d.ops = [] → d.committing = false → d.lh.n = 0

structure Owned (x : Position) (d : State) : Prop where
  op : ∀ op ∈ x.op, op ∈ d.ops
  commits : x.commits = true → d.committing = true
  cleared : x.cleared = true → d.lh.n = 0

structure Apart (x z : Position) : Prop where
  op : ∀ op ∈ x.op, op ∉ z.op
  commits : x.commits = true → z.commits = false

def monitor : Monitor Unit Position State where
  entry x := x = .beginCall
  sleeps _ := true
  inside
    | .beginCall => false
    | .working _ => false
    | .writeCall _ _ => false
    | .endCall _ => false
    | .commit => false
    | .clear => false
    | .commitCall => false
    | .done => false
    | _ => true
  bad _ := false
  inv := Ok
  pre
    | .beginSleep, d => d.committing = true ∨ d.tight
    | _, _ => True
  own := Owned
  apart := Apart
  ready _ d := d.committing = false ∧ ¬ d.tight
  owes _ x := x = .endWake ∨ x = .commitWake

variable {d : State} {op b : Nat} {x k z : Position}

theorem Ok.admitOp (h : Ok d) (hc : d.committing = false) : Ok d.admitOp := by
  have hnew : d.nextOp ∉ d.ops := fun hmem => lt_irrefl _ (h.lt _ hmem)
  refine ⟨h.nonneg, ?_, List.nodup_cons.mpr ⟨hnew, h.nodup⟩, fun o ho => ?_, fun hc' => ?_,
    fun hnil => (by cases hnil)⟩
  · simp [State.admitOp, h.count]
  · rcases List.mem_cons.mp ho with rfl | ho
    · exact Nat.lt_succ_self _
    · exact Nat.lt_succ_of_lt (h.lt o ho)
  · have hc' : d.committing = true := hc'
    simp [hc] at hc'

theorem Ok.record (h : Ok d) (hop : op ∈ d.ops) : Ok (d.record b) := by
  refine ⟨?_, h.count, h.nodup, h.lt, h.alone, fun hnil => ?_⟩
  · have hn := h.nonneg
    unfold State.record
    dsimp only
    split_ifs <;> omega
  · have hnil : d.ops = [] := hnil
    rw [hnil] at hop
    cases hop

theorem Ok.leave_count (h : Ok d) (hop : op ∈ d.ops) : (d.leave op).outstanding = (d.leave op).ops.length := by
  have hpos : 0 < d.ops.length := List.length_pos_of_mem hop
  simp only [State.leave, List.length_erase_of_mem hop, h.count]
  omega

theorem Ok.leave_lt (h : Ok d) : ∀ o ∈ (d.leave op).ops, o < (d.leave op).nextOp :=
  fun o ho => h.lt o (List.mem_of_mem_erase ho)

theorem Ok.leave (h : Ok d) (hop : op ∈ d.ops) (hc : d.committing = false)
    (hne : (d.leave op).outstanding ≠ 0) : Ok (d.leave op) := by
  have hcount := h.leave_count hop
  refine ⟨h.nonneg, hcount, h.nodup.erase _, h.leave_lt, fun hc' => ?_, fun hnil => ?_⟩
  · have hc' : d.committing = true := hc'
    simp [hc] at hc'
  · rw [hnil] at hcount
    exact absurd hcount hne

theorem Ok.leave_commit (h : Ok d) (hop : op ∈ d.ops) (hzero : (d.leave op).outstanding = 0) :
    Ok { d.leave op with committing := true } := by
  have hcount := h.leave_count hop
  refine ⟨h.nonneg, hcount, h.nodup.erase _, h.leave_lt, fun _ => ?_, fun _ hc => (by cases hc)⟩
  rw [hzero] at hcount
  exact List.length_eq_zero_iff.mp (by exact_mod_cast hcount.symm)

theorem Ok.clear (h : Ok d) : Ok { d with lh := { d.lh with n := 0 } } :=
  ⟨le_rfl, h.count, h.nodup, h.lt, h.alone, fun _ _ => rfl⟩

theorem Ok.commitEnd (h : Ok d) (hn : d.lh.n = 0) : Ok { d with committing := false } :=
  ⟨h.nonneg, h.count, h.nodup, h.lt, fun hc => (by cases hc), fun _ _ => hn⟩

theorem Ok.boot (start dev : Nat) (block : Nat → Nat) : Ok (State.boot start dev block) :=
  ⟨le_rfl, rfl, List.nodup_nil, fun _ h => absurd h List.not_mem_nil, fun h => (by cases h),
    fun _ _ => rfl⟩

theorem Ok.not_committing (h : Ok d) (hop : op ∈ d.ops) : d.committing = false :=
  Bool.eq_false_iff.mpr fun hc => by simp [h.alone hc] at hop

theorem monitor_goes (hown : Owned x d) (hop : ∀ o ∈ k.op, o ∈ x.op)
    (hcom : k.commits = true → x.commits = true) (hclr : k.cleared = true → d.lh.n = 0) :
    monitor.Goes x k d d :=
  ⟨fun _ => rfl, ⟨fun o ho => hown.op o (hop o ho), fun hk => hown.commits (hcom hk), hclr⟩,
    fun _ hz hzo => ⟨hzo, fun o ho => hz.op o (hop o ho), fun hk => hz.commits (hcom hk)⟩⟩

theorem monitor_moves (hown : Owned x d) (hop : k.op = x.op) (hcom : k.commits = x.commits)
    (hclr : k.cleared = false) : monitor.Goes x k d d := by
  refine monitor_goes hown (fun o ho => hop ▸ ho) (fun hk => hcom ▸ hk) fun hk => ?_
  rw [hclr] at hk
  cases hk

theorem cleared_commits : ∀ x : Position, x.cleared = true → x.commits = true
  | .commitCall, _ => rfl
  | .commitEnd, _ => rfl

theorem monitor_admits (h : Ok d) :
    monitor.Goes .beginHead (.beginRelease d.nextOp) d d.admitOp := by
  refine ⟨fun _ => rfl, ⟨fun o ho => ?_, fun hk => (by cases hk), fun hk => (by cases hk)⟩,
    fun z _ hzo => ⟨⟨fun o ho => List.mem_cons_of_mem _ (hzo.op o ho), hzo.commits, hzo.cleared⟩,
      fun o ho hoz => ?_, fun hk => (by cases hk)⟩⟩
  · cases ho
    exact List.mem_cons_self
  · cases ho
    exact lt_irrefl _ (h.lt _ (hzo.op _ hoz))

theorem monitor_records (h : Ok d) (hop : op ∈ d.ops) :
    monitor.Goes (.write op b) (.writeRelease op) d (d.record b) := by
  refine ⟨fun _ => rfl, ⟨fun o ho => ?_, fun hk => (by cases hk), fun hk => (by cases hk)⟩,
    fun z hz hzo => ⟨⟨hzo.op, hzo.commits, fun hclr => ?_⟩, hz.op, fun hk => (by cases hk)⟩⟩
  · cases ho
    exact hop
  · have hc := hzo.commits (cleared_commits z hclr)
    simp [h.not_committing hop] at hc

theorem Owned.leave (hzo : Owned z d) (hz : op ∉ z.op) : Owned z (d.leave op) := by
  refine ⟨fun o ho => ?_, hzo.commits, hzo.cleared⟩
  have hne : o ≠ op := by
    rintro rfl
    exact hz ho
  exact (List.mem_erase_of_ne hne).mpr (hzo.op o ho)

theorem monitor_leaves : monitor.Goes (.endCount op) .endWake d (d.leave op) :=
  ⟨fun _ => rfl, ⟨fun o ho => (by cases ho), fun hk => (by cases hk), fun hk => (by cases hk)⟩,
    fun _ hz hzo => ⟨hzo.leave (hz.op op rfl), fun o ho => (by cases ho), fun hk => (by cases hk)⟩⟩

theorem monitor_commits (h : Ok d) (hop : op ∈ d.ops) :
    monitor.Goes (.endCount op) (.endRelease true) d { d.leave op with committing := true } := by
  refine ⟨fun _ => rfl, ⟨fun o ho => (by cases ho), fun _ => rfl, fun hk => (by cases hk)⟩,
    fun z hz hzo => ⟨?_, fun o ho => (by cases ho), fun _ => ?_⟩⟩
  · have hl := hzo.leave (hz.op op rfl)
    exact ⟨hl.op, fun _ => rfl, hl.cleared⟩
  · exact Bool.eq_false_iff.mpr fun hc => by simpa [h.not_committing hop] using hzo.commits hc

theorem monitor_clears (hown : Owned .clear d) :
    monitor.Goes .clear .commitCall d { d with lh := { d.lh with n := 0 } } :=
  ⟨fun _ => rfl, ⟨fun o ho => (by cases ho), fun _ => hown.commits rfl, fun _ => rfl⟩,
    fun _ hz hzo => ⟨⟨hzo.op, hzo.commits, fun _ => rfl⟩, fun o ho => (by cases ho),
      fun _ => hz.commits rfl⟩⟩

theorem monitor_ends : monitor.Goes .commitEnd .commitWake d { d with committing := false } := by
  refine ⟨fun _ => rfl, ⟨fun o ho => (by cases ho), fun hk => (by cases hk), fun hk => (by cases hk)⟩,
    fun z hz hzo => ⟨⟨hzo.op, fun hc => ?_, hzo.cleared⟩, fun o ho => (by cases ho),
      fun hk => (by cases hk)⟩⟩
  have hz := hz.commits rfl
  simp [hc] at hz

theorem monitor_locked (x : Position) : monitor.Locked code x := by
  unfold Monitor.Locked
  cases x with
  | beginHead | write op b | endCount op | commit =>
    intro v d
    dsimp only
    split_ifs <;> rfl
  | beginSleep => exact ⟨rfl, rfl, rfl⟩
  | working op => exact fun v d => by cases v <;> rfl
  | endRelease doCommit => exact ⟨rfl, by cases doCommit <;> rfl⟩
  | clear | commitEnd | panic msg => exact fun _ _ => rfl
  | done => rfl
  | _ => exact ⟨rfl, rfl⟩

theorem tight_record (ht : d.tight) : (d.record b).tight := by
  unfold State.tight State.record at *
  dsimp only
  split_ifs <;> omega

def Position.quiet : Position → Bool
  | .endWake => false
  | .commitWake => false
  | _ => true

theorem not_owes (hx : x.quiet = true) (ch : Unit) : ¬ monitor.owes ch x := by
  rintro (rfl | rfl) <;> cases hx

theorem monitor_access {x k : Position} {d d' : State} (hx : monitor.inside x = true)
    (hgoes : monitor.Goes x k d d') (hinv : Ok d') (hpre : monitor.pre k d') (hquiet : x.quiet = true)
    (hready : monitor.ready () d' → monitor.ready () d ∨ monitor.owes () k) :
    monitor.Accessed x k d d' := by
  refine ⟨rfl, hgoes, hinv, ?_, fun ch hch => absurd hch (not_owes hquiet ch),
    fun _ hr => hready hr⟩
  rw [if_pos hx]
  exact hpre

theorem monitor_reads {x k : Position} {d : State} (hx : monitor.inside x = false)
    (hgoes : monitor.Goes x k d d) (hinv : Ok d) (hquiet : x.quiet = true) :
    monitor.Accessed x k d d := by
  refine ⟨rfl, hgoes, hinv, ?_, fun ch hch => absurd hch (not_owes hquiet ch), fun _ => .inl⟩
  simp only [hx, Bool.false_eq_true, if_false]
  exact fun _ _ h => h

theorem monitor_checked (x : Position) (d : State) (hinv : Ok d) (hown : Owned x d)
    (hpre : monitor.inside x = true → monitor.pre x d) : monitor.Checked code x d := by
  unfold Monitor.Checked
  cases x with
  | beginCall | writeCall op b | endCall op =>
    exact ⟨rfl, monitor_moves hown rfl rfl rfl, trivial⟩
  | beginHead =>
    have hstay : monitor.Goes .beginHead .beginSleep d d :=
      monitor_moves hown rfl rfl rfl
    intro v
    by_cases hc : d.committing = true
    · simp only [if_pos hc]
      exact monitor_access rfl hstay hinv (.inl hc) rfl .inl
    · simp only [if_neg hc]
      by_cases ht : d.tight
      · simp only [if_pos ht]
        exact monitor_access rfl hstay hinv (.inr ht) rfl .inl
      · simp only [if_neg ht]
        have hc : d.committing = false := by simpa using hc
        exact monitor_access rfl (monitor_admits hinv) (hinv.admitOp hc) trivial rfl
          fun _ => .inl ⟨hc, ht⟩
  | beginSleep =>
    have hp : d.committing = true ∨ d.tight := hpre rfl
    refine ⟨rfl, monitor_moves hown rfl rfl rfl, not_owes rfl,
      fun hr => ?_, fun _ _ _ => trivial⟩
    rcases hp with hc | ht
    · simp [hr.1] at hc
    · exact hr.2 ht
  | beginRelease op | writeRelease op =>
    exact ⟨rfl, monitor_moves hown rfl rfl rfl, not_owes rfl⟩
  | working op =>
    intro v
    cases v with
    | none | some b =>
      exact monitor_reads rfl (monitor_moves hown rfl rfl rfl) hinv rfl
  | write op b =>
    have hop : op ∈ d.ops := hown.op op rfl
    have hpanic : ∀ msg, monitor.Goes (.write op b) (.panic msg) d d := fun msg =>
      monitor_goes hown (fun _ h => (by cases h)) (fun h => h) fun h => (by cases h)
    intro v
    dsimp only
    by_cases hbig : d.lh.n ≥ logBlocks
    · simp only [if_pos hbig]
      exact monitor_access rfl (hpanic _) hinv trivial rfl .inl
    · simp only [if_neg hbig]
      by_cases hout : d.outstanding < 1
      · simp only [if_pos hout]
        exact monitor_access rfl (hpanic _) hinv trivial rfl .inl
      · simp only [if_neg hout]
        exact monitor_access rfl (monitor_records hinv hop) (hinv.record hop) trivial rfl
          fun hr => .inl ⟨hr.1, fun ht => hr.2 (tight_record ht)⟩
  | endCount op =>
    have hop : op ∈ d.ops := hown.op op rfl
    have hc := hinv.not_committing hop
    intro v
    simp only [hc, Bool.false_eq_true, if_false]
    by_cases hz : (d.leave op).outstanding = 0
    · simp only [if_pos hz]
      exact monitor_access rfl (monitor_commits hinv hop) (hinv.leave_commit hop hz) trivial rfl
        fun hr => (by cases hr.1)
    · simp only [if_neg hz]
      exact monitor_access rfl monitor_leaves (hinv.leave hop hc hz) trivial rfl fun _ => .inr (.inl rfl)
  | endWake | commitWake =>
    exact ⟨rfl, monitor_moves hown rfl rfl rfl, trivial,
      fun _ _ => .inl rfl⟩
  | endRelease doCommit =>
    cases doCommit with
    | true | false =>
      exact ⟨rfl, monitor_moves hown rfl rfl rfl, not_owes rfl⟩
  | commit =>
    intro v
    by_cases hn : d.lh.n > 0
    · simp only [if_pos hn]
      exact monitor_reads rfl (monitor_moves hown rfl rfl rfl) hinv rfl
    · simp only [if_neg hn]
      have hzero : d.lh.n = 0 := le_antisymm (not_lt.mp hn) hinv.nonneg
      exact monitor_reads rfl (monitor_goes hown (fun _ h => h) (fun h => h) fun _ => hzero) hinv rfl
  | clear =>
    have hc : d.committing = true := hown.commits rfl
    refine fun v => ⟨rfl, monitor_clears hown, hinv.clear, ?_, fun ch hch => absurd hch (not_owes rfl ch),
      fun _ hr => ?_⟩
    · intro z _ hz
      cases z with
      | beginSleep => exact .inl hc
      | _ => trivial
    · have hr : d.committing = false := hr.1
      simp [hc] at hr
  | commitCall =>
    exact ⟨rfl, monitor_goes hown (fun _ h => h) (fun h => h) fun _ => hown.cleared rfl, trivial⟩
  | commitEnd =>
    exact fun v => monitor_access rfl monitor_ends (hinv.commitEnd (hown.cleared rfl)) trivial rfl
      fun _ => .inr (.inr rfl)
  | done => trivial
  | panic msg =>
    exact fun v => monitor_access rfl (monitor_moves hown rfl rfl rfl)
      hinv trivial rfl .inl

theorem monitor_sound : monitor.Sound code := by
  refine ⟨monitor_locked, fun x hx => ?_, fun x z hxz => ⟨fun o ho hox => hxz.op o hox ho, fun hz => ?_⟩,
    fun ch x hx => ?_, fun x d _ => monitor_checked x d⟩
  · obtain rfl : x = .beginCall := by simpa [monitor] using hx
    exact ⟨rfl, rfl, fun _ => ⟨fun o ho => (by cases ho), fun h => (by cases h), fun h => (by cases h)⟩,
      fun _ => ⟨fun o ho => (by cases ho), fun h => (by cases h)⟩⟩
  · exact Bool.eq_false_iff.mpr fun hx => by simp [hxz.commits hx] at hz
  · rcases hx with rfl | rfl <;> rfl

variable {n : Nat} {κ : Type} {s : Sys n κ Unit Unit Position State}

theorem Calls.allows {a : κ × Op Position (Option Nat)} (h : Calls a) : monitor.Allows code s a := by
  obtain ⟨c, op⟩ := a
  unfold Monitor.Allows
  split
  · next heq =>
    cases heq
    exact decide_eq_true h
  · next heq =>
    cases heq
    exact h.elim
  · split
    · split
      · rfl
      · trivial
    · trivial
  · trivial

/-- Whoever sleeps in `begin_op` would not be admitted, and a commit or an operation is in progress. -/
theorem begin_op_not_stranded [DecidableEq κ] {start dev : Nat} {block : Nat → Nat} {p : Fin n}
    {as : List (κ × Op Position (Option Nat))}
    (hrun : Run (step code) (fun _ a => Calls a) (init p (State.boot start dev block)) as s)
    (hfree : s.lock (.client ()) = none) (q : Fin n) (hq : (s.proc q).state = .sleeping)
    (hch : (s.proc q).chan = some (.client ())) :
    (s.data.committing = true ∨ 1 ≤ s.data.outstanding) ∧
      ¬ (s.data.committing = false ∧
        s.data.lh.n + (s.data.outstanding + 1) * maxOpBlocks ≤ logBlocks) := by
  have hM := monitor_sound
  have hboot : monitor.inv (State.boot start dev block) := Ok.boot start dev block
  obtain ⟨h, hh⟩ := hM.holds hboot (hrun.mono fun s a ha => ha.allows)
  have hnot : ¬ (s.data.committing = false ∧ ¬ s.data.tight) := fun hr =>
    hh.awake hM h hfree (show monitor.ready () s.data from hr) q ⟨hq, hch⟩
  have hok : Ok s.data := hh.data
  constructor
  · by_contra hcon
    obtain ⟨hc, hout⟩ := not_or.mp hcon
    have hc : s.data.committing = false := by simpa using hc
    have hcount := hok.count
    have hnil : s.data.ops = [] := List.length_eq_zero_iff.mp (by omega)
    have hzero := hok.idle hnil hc
    have hroom : ¬ s.data.tight := by
      unfold State.tight
      rw [hzero, hcount, hnil]
      decide
    exact hnot ⟨hc, hroom⟩
  · rintro ⟨hc, hroom⟩
    exact hnot ⟨hc, not_lt.mpr hroom⟩

/-- A process begins an operation while another is in `commit`. -/
def commitRun : List (Bool × Op Position (Option Nat)) :=
  go false 3 ++ (false, .kfork) :: go false 9 ++ (false, .syscall .beginCall) :: go false 1 ++
    (false, .access none) :: go false 1 ++ (false, .access none) :: go false 1 ++
    (false, .access none) :: go false 1 ++ go true 5 ++ (true, .syscall .beginCall) :: go true 1 ++
    (true, .access none) :: go true 4

theorem begin_op_not_stranded_commit : ∃ s : Sys 2 Bool Unit Unit Position State,
    Run (step code) (fun _ a => Calls a) (init 0 (State.boot 2 1 fun _ => 0)) commitRun s ∧
      (s.lock (.client ()) = none ∧ (s.proc 1).state = .sleeping ∧
        (s.proc 1).chan = some (.client ())) ∧
      (s.data.committing = true ∨ 1 ≤ s.data.outstanding) ∧
        ¬ (s.data.committing = false ∧
          s.data.lh.n + (s.data.outstanding + 1) * maxOpBlocks ≤ logBlocks) := by
  have hrun : ∃ s : Sys 2 Bool Unit Unit Position State,
      Run (step code) (fun _ a => Calls a) (init 0 (State.boot 2 1 fun _ => 0)) commitRun s ∧
        s.lock (.client ()) = none ∧ (s.proc 1).state = .sleeping ∧
          (s.proc 1).chan = some (.client ()) :=
    Run.exists_of_outcome (by decide +kernel)
  obtain ⟨s, hrun, hs⟩ := hrun
  exact ⟨s, hrun, hs, begin_op_not_stranded hrun hs.1 1 hs.2.1 hs.2.2⟩

end Xv6.LogWait
