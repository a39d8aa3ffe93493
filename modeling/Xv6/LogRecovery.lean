import Xv6.LogTransfer

namespace Xv6.LogCommit

open Xv6.Lib Xv6.BufferCache Function

def InLog (start b : Nat) : Prop := start ≤ b ∧ b ≤ start + logBlocks

/-- A transaction of the log at `start`: its home blocks with their new contents, and the
contents of the whole disk before it. -/
structure Txn where
  start : Nat
  n : Nat
  block : Nat → Nat
  new : Nat → Block
  old : Nat → Block
  fits : n ≤ logBlocks
  distinct : ∀ i j, i < n → j < n → block i = block j → i = j
  outside : ∀ i, i < n → ¬ InLog start (block i)
  uint : ∀ i, i < n → block i < 2 ^ 32

namespace Txn

variable (T : Txn)

def Home (b : Nat) : Prop := ∃ i, i < T.n ∧ b = T.block i

def Care (b : Nat) : Prop := InLog T.start b ∨ T.Home b

def Others (d : Nat → Block) : Prop := ∀ b, ¬ InLog T.start b → ¬ T.Home b → d b = T.old b

structure Uncommitted (d : Nat → Block) : Prop where
  head : headN (d T.start) = 0
  home : ∀ b, ¬ InLog T.start b → d b = T.old b

/-- The header names the transaction and the log holds its contents; the home blocks may
hold anything. -/
structure Committed (d : Nat → Block) : Prop where
  head : headN (d T.start) = T.n
  block : ∀ i, i < T.n → headBlock (d T.start) i = T.block i
  log : ∀ i, i < T.n → d (T.start + i + 1) = T.new i
  others : T.Others d

structure Installed (d : Nat → Block) : Prop where
  head : headN (d T.start) = 0
  home : ∀ i, i < T.n → d (T.block i) = T.new i
  others : T.Others d

structure Loaded (lg : Log) : Prop where
  start : lg.start = T.start
  n : lg.lh.n = T.n
  block : ∀ i, i < T.n → lg.lh.block i = T.block i

def pins (k b : Nat) : Nat :=
  if (List.range T.n).any (fun i => decide (k ≤ i) && T.block i == b) then 1 else 0

variable {T}

variable {b i k : Nat}

theorem pins_block (hk : k ≤ i) (hi : i < T.n) : T.pins k (T.block i) = 1 := by
  unfold pins
  rw [if_pos]
  exact List.any_eq_true.mpr ⟨i, by simpa using hi, by simpa using hk⟩

theorem pins_eq_zero (h : ∀ i, k ≤ i → i < T.n → T.block i ≠ b) : T.pins k b = 0 := by
  unfold pins
  rw [if_neg]
  intro hany
  obtain ⟨i, hi, hb⟩ := List.any_eq_true.mp hany
  simp only [List.mem_range, Bool.and_eq_true, decide_eq_true_eq, beq_iff_eq] at hi hb
  exact h i hb.1 hi hb.2

theorem pins_succ (hk : k < T.n) :
    update (T.pins k) (T.block k) 0 = T.pins (k + 1) := by
  funext b
  by_cases hb : b = T.block k
  · subst hb
    rw [update_self, pins_eq_zero]
    intro i hki hi he
    have := T.distinct i k hi hk he
    omega
  · rw [update_of_ne hb]
    unfold pins
    congr 2
    apply List.any_congr rfl
    intro i
    obtain rfl | hik := eq_or_ne i k
    · simp [Ne.symm hb]
    · have : decide (k ≤ i) = decide (k + 1 ≤ i) := by simp only [decide_eq_decide]; omega
      rw [this]

theorem start_inLog : InLog T.start T.start := ⟨le_rfl, Nat.le_add_right _ _⟩

theorem ne_start (hb : ¬ InLog T.start b) : b ≠ T.start := by
  rintro rfl
  exact hb start_inLog

theorem log_inLog (hi : i < T.n) : InLog T.start (T.start + i + 1) := by
  have := T.fits
  constructor <;> omega

theorem block_ne_start (hi : i < T.n) : T.block i ≠ T.start :=
  ne_start (T.outside i hi)

theorem block_ne_log {j : Nat} (hi : i < T.n) (hj : j < T.n) : T.block i ≠ T.start + j + 1 :=
  fun he => T.outside i hi (he ▸ log_inLog hj)

theorem care_start : T.Care T.start := .inl start_inLog

theorem care_log (hi : i < T.n) : T.Care (T.start + i + 1) := .inl (log_inLog hi)

theorem care_block (hi : i < T.n) : T.Care (T.block i) := .inr ⟨i, hi, rfl⟩

theorem pins_inLog (hb : InLog T.start b) : T.pins k b = 0 :=
  pins_eq_zero (fun i _ hi he => T.outside i hi (he ▸ hb))

variable {d : Nat → Block} {x : Block}

theorem Uncommitted.write_log (h : T.Uncommitted d) (hb : InLog T.start b)
    (hs : b ≠ T.start) : T.Uncommitted (update d b x) := by
  refine ⟨by rw [update_of_ne (Ne.symm hs)]; exact h.head, ?_⟩
  intro c hc
  have hne : c ≠ b := by
    rintro rfl
    exact hc hb
  rw [update_of_ne hne]
  exact h.home c hc

theorem Others.write (h : T.Others d) (hb : T.Care b) :
    T.Others (update d b x) := by
  intro c hc hh
  rw [update_of_ne]
  · exact h c hc hh
  · rintro rfl
    exact hb.elim hc hh

theorem Committed.write_home (h : T.Committed d) (hi : i < T.n) :
    T.Committed (update d (T.block i) x) := by
  have hs : T.start ≠ T.block i := (block_ne_start hi).symm
  refine ⟨?_, ?_, ?_, h.others.write (.inr ⟨i, hi, rfl⟩)⟩
  · rw [update_of_ne hs]
    exact h.head
  · rw [update_of_ne hs]
    exact h.block
  · intro j hj
    rw [update_of_ne (block_ne_log hi hj).symm]
    exact h.log j hj

end Txn

variable {T : Txn} {lg : Log} {p : Nat} {s : Kernel} {d d' v : Nat → Block}
  {r : EStateM.Result Stop Kernel PUnit}

def WritingLog (T : Txn) (lg : Log) (p k : Nat) (s : Kernel) : Prop :=
  ∃ v, Cached T.Care (T.pins 0) v [] s ∧ s.log = lg ∧ s.power + k = p ∧ T.Uncommitted s.disk ∧
    (∀ i, i < T.n → v (T.block i) = T.new i) ∧ ∀ i, i < k → v (T.start + i + 1) = T.new i

theorem writeLog_ensures (hlg : T.Loaded lg) (h : WritingLog T lg p 0 s) :
    Ensures writeLog s (fun _ t => WritingLog T lg p T.n t)
      (fun _ t => T.Uncommitted t.disk ∧ p ≤ t.power + T.n) := by
  unfold writeLog
  apply Ensures.bind_get
  have hs : s.log = lg := h.choose_spec.2.1
  rw [hs, hlg.n, hlg.start, Int.toNat_natCast]
  refine Ensures.forM_range _ (WritingLog T lg p) T.n ?_ h
  intro k t hk ⟨v, hv, hlog, hpow, hun, hnew, hdone⟩
  rw [hlg.block k hk, show lg.dev = t.log.dev by rw [hlog]]
  refine (writeLog_body hv (Txn.care_log hk) (Txn.care_block hk) (Txn.block_ne_log hk hk)).imp ?_ ?_
  · intro _ u hu
    rw [hnew k hk] at hu
    refine ⟨_, hu.cached, hu.log.trans hlog, ?_, ?_, ?_, ?_⟩
    · have := hu.power
      omega
    · rw [hu.disk]
      exact hun.write_log (Txn.log_inLog hk) (by omega)
    · intro i hi
      rw [update_of_ne (Txn.block_ne_log hi hk)]
      exact hnew i hi
    · intro i hi
      by_cases hik : i = k
      · rw [hik, update_self]
      · rw [update_of_ne (by omega)]
        exact hdone i (by omega)
  · intro _ u hu
    refine ⟨hu.1 ▸ hun, ?_⟩
    have := hu.2
    omega

/-- The loop of `install_trans` after `k` iterations, in a commit or in a recovery. -/
def Installing (T : Txn) (recovering : Bool) (lg : Log) (p k : Nat) (s : Kernel) : Prop :=
  ∃ v, Cached T.Care (if recovering then fun _ => 0 else T.pins k) v [] s ∧ s.log = lg ∧
    s.power ≤ p ∧ T.Committed s.disk ∧ (∀ i, i < T.n → v (T.start + i + 1) = T.new i) ∧
    ∀ i, i < k → s.disk (T.block i) = T.new i

theorem installTrans_ensures (recovering : Bool) (hlg : T.Loaded lg) (h : Installing T recovering lg p 0 s) :
    Ensures (installTrans recovering) s (fun _ t => Installing T recovering lg p T.n t)
      (fun _ t => T.Committed t.disk ∧ t.power ≤ p) := by
  unfold installTrans
  apply Ensures.bind_get
  have hs : s.log = lg := h.choose_spec.2.1
  rw [hs, hlg.n, hlg.start, Int.toNat_natCast]
  refine Ensures.forM_range _ (Installing T recovering lg p) T.n ?_ h
  intro k t hk ⟨v, hv, hlog, hpow, hcom, hnew, hdone⟩
  rw [hlg.block k hk, show lg.dev = t.log.dev by rw [hlog]]
  have hpin : recovering = false →
      (if recovering then fun _ => 0 else T.pins k) (T.block k) = 1 := by
    intro hr
    simpa [hr] using Txn.pins_block le_rfl hk
  refine (installTrans_body recovering hv (Txn.care_log hk) (Txn.care_block hk)
    (Txn.block_ne_log hk hk) hpin).imp ?_ ?_
  · intro _ u hu
    rw [hnew k hk] at hu
    refine ⟨update v (T.block k) (T.new k), ?_, hu.log.trans hlog, ?_, ?_, ?_, ?_⟩
    · have hp : unpinned recovering (if recovering then fun _ => 0 else T.pins k) (T.block k) =
          if recovering then fun _ => 0 else T.pins (k + 1) := by
        cases recovering with
        | true => rfl
        | false => exact Txn.pins_succ hk
      exact hp ▸ hu.cached
    · have := hu.power
      omega
    · rw [hu.disk]
      exact hcom.write_home hk
    · intro i hi
      rw [update_of_ne (Txn.block_ne_log hk hi).symm]
      exact hnew i hi
    · intro i hi
      rw [hu.disk]
      by_cases hik : i = k
      · rw [hik, update_self]
      · have hne : T.block i ≠ T.block k := fun he => hik (T.distinct i k (by omega) hk he)
        rw [update_of_ne hne]
        exact hdone i (by omega)
  · intro _ u hu
    exact ⟨hu.1 ▸ hcom, by have := hu.2; omega⟩

theorem eraseHead_ensures {pin : Nat → Nat} (hs : s.log.start = T.start) (hc : Cached T.Care pin v [] s)
    (hcom : T.Committed s.disk) (hp : s.power ≤ p) (hdone : ∀ i, i < T.n → s.disk (T.block i) = T.new i) :
    Ensures (do clearHead; writeHead) s (fun _ t => T.Installed t.disk ∧ t.power ≤ p)
      (fun _ t => T.Committed t.disk ∧ t.power ≤ p) := by
  apply Ensures.bind_modify
  have hset := Cached.setLog hc { s.log with lh := { s.log.lh with n := 0 } } rfl
  refine (writeHead_ensures hset (hs.symm ▸ Txn.care_start)).imp ?_
    (fun _ u hu => ⟨hu.1 ▸ hcom, le_of_eq_of_le hu.2 hp⟩)
  intro _ u hu
  have hd := hu.disk
  have hpow : u.power + 1 = s.power := hu.power
  simp only [hs] at hd
  refine ⟨⟨?_, ?_, ?_⟩, by omega⟩
  · rw [hd, update_self]
    exact headN_putHead _ _ le_rfl (show (0 : Int) < 2 ^ 31 by decide)
  · intro i hi
    rw [hd, update_of_ne (Txn.block_ne_start hi)]
    exact hdone i hi
  · rw [hd]
    exact hcom.others.write (.inl Txn.start_inLog)

theorem commitHead_ensures (hlg : T.Loaded lg) (h : WritingLog T lg p T.n s) :
    Ensures writeHead s (fun _ t => Installing T false lg (p - (T.n + 1)) 0 t)
      (fun _ t => T.Uncommitted t.disk ∧ p ≤ t.power + T.n) := by
  obtain ⟨v, hv, hlog, hpow, hun, hnew, hdone⟩ := h
  have hcare : T.Care s.log.start := by
    rw [hlog, hlg.start]
    exact Txn.care_start
  refine (writeHead_ensures hv hcare).imp ?_ (fun _ u hu => ⟨hu.1 ▸ hun, by have := hu.2; omega⟩)
  intro _ u hu
  have hd := hu.disk
  have hpw := hu.power
  have hlogdisk : ∀ i, i < T.n → s.disk (T.start + i + 1) = T.new i := by
    intro i hi
    rw [hv.disk _ (Txn.care_log hi) (Txn.pins_inLog (Txn.log_inLog hi)) (by simp)]
    exact hdone i hi
  have hfit := T.fits
  have hn : T.n < 2 ^ 31 := lt_of_le_of_lt T.fits (by decide)
  rw [hlog, hlg.start] at hd
  refine ⟨_, hu.cached, hu.log.trans hlog, by omega, ⟨?_, ?_, ?_, ?_⟩, ?_, fun i hi => by omega⟩
  · rw [hd, update_self, headN_putHead _ _ (by rw [hlg.n]; omega) (by rw [hlg.n]; omega)]
    exact hlg.n
  · intro i hi
    rw [hd, update_self, headBlock_putHead _ _ _ (by rw [hlg.n]; omega)
      (by rw [hlg.block i hi]; exact T.uint i hi)]
    exact hlg.block i hi
  · intro i hi
    rw [hd, update_of_ne (by omega)]
    exact hlogdisk i hi
  · rw [hd]
    exact Txn.Others.write (fun b hb _ => hun.home b hb) (.inl Txn.start_inLog)
  · intro i hi
    rw [hlog, hlg.start, update_of_ne (by omega)]
    exact hdone i hi

theorem commit_ensures (hlg : T.Loaded lg) (hn : 0 < T.n) (h : WritingLog T lg p 0 s) :
    Ensures commit s (fun _ t => T.Installed t.disk ∧ t.power ≤ p - (T.n + 1))
      (fun _ t => T.Uncommitted t.disk ∧ p ≤ t.power + T.n ∨
        T.Committed t.disk ∧ t.power ≤ p - (T.n + 1)) := by
  unfold commit
  apply Ensures.bind_get
  have hs : s.log = lg := h.choose_spec.2.1
  rw [hs, hlg.n, if_pos (by omega)]
  apply Ensures.bind
  refine (writeLog_ensures hlg h).imp ?_ (fun _ t ht => .inl ht)
  intro _ t ht
  apply Ensures.bind
  refine (commitHead_ensures hlg ht).imp ?_ (fun _ u hu => .inl hu)
  intro _ u hu
  apply Ensures.bind
  refine (installTrans_ensures false hlg hu).imp ?_ (fun _ w hw => .inr hw)
  intro _ w ⟨v, hv, hlog, hpow, hcom, _, hdone⟩
  exact (eraseHead_ensures (by rw [hlog, hlg.start]) hv hcom hpow hdone).imp
    (fun _ _ hx => hx) (fun _ _ hx => .inr hx)

/-- The kernel has just booted from the disk `d`. -/
structure Booted (start : Nat) (d : Nat → Block) (s : Kernel) : Prop where
  disk : s.disk = d
  start : s.log.start = start
  cache : Cached (fun _ => True) (fun _ => 0) d [] s

theorem recover_committed (hb : Booted T.start d s) (hcom : T.Committed d) :
    Ensures recoverFromLog s (fun _ t => T.Installed t.disk) (fun _ t => T.Committed t.disk) := by
  unfold recoverFromLog
  apply Ensures.bind
  refine (readHead_ensures hb.cache trivial rfl).imp ?_ (fun _ t ht => by rw [ht.1, hb.disk]; exact hcom)
  intro _ t ⟨ht, hun, hlog⟩
  have hd : t.disk = d := hun.1.trans hb.disk
  have hlg : T.Loaded t.log := by
    rw [hlog, hb.start]
    refine ⟨hb.start, hcom.head, ?_⟩
    intro i hi
    simp only [loadHead, hcom.head, Nat.cast_lt, hi, ↓reduceIte, hcom.block i hi]
  have hI : Installing T true t.log t.power 0 t :=
    ⟨d, ht.weaken (fun _ _ => trivial), rfl, le_rfl, hd ▸ hcom, hcom.log, fun i hi => by omega⟩
  apply Ensures.bind
  refine (installTrans_ensures true hlg hI).imp ?_ (fun _ _ hw => hw.1)
  intro _ w ⟨v, hv, hlog', hpow, hcom', _, hdone⟩
  exact (eraseHead_ensures (by rw [hlog', hlg.start]) hv hcom' hpow hdone).imp
    (fun _ _ hx => hx.1) (fun _ _ hx => hx.1)

theorem recover_idle {start : Nat} (hb : Booted start d s) (h0 : headN (d start) = 0) :
    Ensures recoverFromLog s
      (fun _ t => headN (t.disk start) = 0 ∧ ∀ b, b ≠ start → t.disk b = d b)
      (fun _ t => t.disk = d) := by
  unfold recoverFromLog
  apply Ensures.bind
  refine (readHead_ensures hb.cache trivial rfl).imp ?_ (fun _ t ht => ht.1.trans hb.disk)
  intro _ t ⟨ht, hun, hlog⟩
  have hd : t.disk = d := hun.1.trans hb.disk
  have hn : t.log.lh.n = 0 := by rw [hlog, hb.start]; exact h0
  have hs : t.log.start = start := by rw [hlog]; exact hb.start
  unfold installTrans
  apply Ensures.bind
  apply Ensures.bind_get
  rw [hn]
  apply Ensures.pure
  apply Ensures.bind_modify
  have hset := Cached.setLog ht { t.log with lh := { t.log.lh with n := 0 } } rfl
  refine (writeHead_ensures hset trivial).imp ?_ (fun _ u hu => hu.1.trans hd)
  intro _ u hu
  have hdu := hu.disk
  simp only [hs, hd] at hdu
  rw [hdu]
  refine ⟨?_, fun b hb' => by rw [update_of_ne hb']⟩
  rw [update_self]
  exact headN_putHead _ _ le_rfl (show (0 : Int) < 2 ^ 31 by decide)

theorem Txn.Uncommitted.off_header (h : T.Uncommitted d)
    (h0 : headN (d' T.start) = 0) (hd : ∀ b, b ≠ T.start → d' b = d b) : T.Uncommitted d' := by
  refine ⟨h0, fun b hb => ?_⟩
  rw [hd b (Txn.ne_start hb)]
  exact h.home b hb

theorem Txn.Installed.off_header (h : T.Installed d)
    (h0 : headN (d' T.start) = 0) (hd : ∀ b, b ≠ T.start → d' b = d b) : T.Installed d' := by
  refine ⟨h0, fun i hi => ?_, fun b hb hh => ?_⟩
  · rw [hd _ (Txn.block_ne_start hi)]
    exact h.home i hi
  · rw [hd b (Txn.ne_start hb)]
    exact h.others b hb hh

theorem recover_survives (hb : Booted T.start d s) :
    (T.Uncommitted d → Ensures recoverFromLog s (fun _ t => T.Uncommitted t.disk)
      (fun _ t => T.Uncommitted t.disk)) ∧
    (T.Committed d ∨ T.Installed d → Ensures recoverFromLog s (fun _ t => T.Installed t.disk)
      (fun _ t => T.Committed t.disk ∨ T.Installed t.disk)) := by
  refine ⟨fun hu => ?_, ?_⟩
  · refine (recover_idle hb hu.head).imp (fun _ t ht => hu.off_header ht.1 ht.2) ?_
    rintro _ t rfl
    exact hu
  · rintro (hc | hi)
    · exact (recover_committed hb hc).imp (fun _ _ ht => ht) (fun _ _ ht => .inl ht)
    · refine (recover_idle hb hi.head).imp (fun _ t ht => hi.off_header ht.1 ht.2) ?_
      rintro _ t rfl
      exact .inr hi

/-- The disk `d'` is what any number of boots from `d` leave behind, each of which crashed
inside `recover_from_log`. -/
inductive CrashedRecoveries (start : Nat) (d : Nat → Block) : (Nat → Block) → Prop where
  | none : CrashedRecoveries start d d
  | crash {d' : Nat → Block} {s t : Kernel} {e : Stop} : CrashedRecoveries start d d' →
      Booted start d' s → recoverFromLog s = .error e t → CrashedRecoveries start d t.disk

theorem CrashedRecoveries.survives (h : CrashedRecoveries T.start d d') :
    (T.Uncommitted d → T.Uncommitted d') ∧
      (T.Committed d ∨ T.Installed d → T.Committed d' ∨ T.Installed d') := by
  induction h with
  | none => exact ⟨id, id⟩
  | crash _ hb he ih =>
    have hr := recover_survives (T := T) hb
    exact ⟨fun hu => (hr.1 (ih.1 hu)).error he, fun hc => (hr.2 (ih.2 hc)).error he⟩

def stopped {α : Type} : EStateM.Result Stop Kernel α → Kernel
  | .ok _ t => t
  | .error _ t => t

/-- The kernel is about to commit blocks pinned in the cache, whose contents are `v`. -/
structure ReadyToCommit (s : Kernel) (v : Nat → Block) : Prop where
  head : headN (s.disk s.log.start) = 0
  nonneg : 0 ≤ s.log.lh.n
  fits : s.log.lh.n ≤ logBlocks
  distinct : ∀ i j : Nat, i < s.log.lh.n → j < s.log.lh.n →
    s.log.lh.block i = s.log.lh.block j → i = j
  outside : ∀ i : Nat, i < s.log.lh.n → ¬ InLog s.log.start (s.log.lh.block i)
  uint : ∀ i : Nat, i < s.log.lh.n → s.log.lh.block i < 2 ^ 32
  cache : Cached
    (fun b => InLog s.log.start b ∨ ∃ i : Nat, i < s.log.lh.n.toNat ∧ b = s.log.lh.block i)
    (fun b => if (List.range s.log.lh.n.toNat).any (s.log.lh.block · == b) then 1 else 0)
    v [] s

def ReadyToCommit.txn {v : Nat → Block} (h : ReadyToCommit s v) : Txn where
  start := s.log.start
  n := s.log.lh.n.toNat
  block := s.log.lh.block
  new := fun i => v (s.log.lh.block i)
  old := s.disk
  fits := by have := h.fits; omega
  distinct := fun i j hi hj => h.distinct i j (by omega) (by omega)
  outside := fun i hi => h.outside i (by omega)
  uint := fun i hi => h.uint i (by omega)

theorem ReadyToCommit.writing (h : ReadyToCommit s v) :
    WritingLog h.txn s.log s.power 0 s := by
  refine ⟨v, ?_, rfl, rfl, ⟨h.head, fun _ _ => rfl⟩, fun _ _ => rfl, fun i hi => by omega⟩
  have hp : (h.txn.pins 0) =
      fun b => if (List.range s.log.lh.n.toNat).any (s.log.lh.block · == b) then 1 else 0 := by
    funext b
    simp only [Txn.pins, txn, Nat.zero_le, decide_true, Bool.true_and]
  exact hp ▸ h.cache

theorem ReadyToCommit.loaded (h : ReadyToCommit s v) : h.txn.Loaded s.log :=
  ⟨rfl, (Int.toNat_of_nonneg h.nonneg).symm, fun _ _ => rfl⟩

theorem ReadyToCommit.crash (h : ReadyToCommit s v) :
    (h.txn.Uncommitted (stopped (commit s)).disk ∧
        s.power ≤ (stopped (commit s)).power + h.txn.n) ∨
      h.txn.Committed (stopped (commit s)).disk ∨ h.txn.Installed (stopped (commit s)).disk := by
  by_cases hn : 0 < h.txn.n
  · have hc := commit_ensures h.loaded hn h.writing
    cases hr : commit s with
    | ok a t => exact .inr (.inr (hc.ok hr).1)
    | error e t => exact (hc.error hr).imp id (fun ht => .inl ht.1)
  · have hz : s.log.lh.n = 0 := by
      have h0 : s.log.lh.n.toNat = 0 := Nat.eq_zero_of_not_pos hn
      have := h.nonneg
      omega
    have hr : commit s = .ok ⟨⟩ s := by
      have hc : Completes commit s (fun r t => r = ⟨⟩ ∧ t = s) := by
        unfold commit
        apply Ensures.bind_get
        rw [if_neg (by omega)]
        exact .pure ⟨rfl, rfl⟩
      cases hr : commit s with
      | ok a t =>
        obtain ⟨-, rfl⟩ := hc.ok hr
        rfl
      | error e t => exact (hc.error hr).elim
    rw [hr]
    exact .inl ⟨⟨h.head, fun _ _ => rfl⟩, Nat.le_add_right _ _⟩

/-- `commit` stops wherever its power runs out; recoveries crash any number of times; once one completes, the
home blocks are all old or all new, and all new if the first `write_head` took place. -/
theorem commit_crash_atomic {s : Kernel} {v : Nat → Block} (h : ReadyToCommit s v)
    {d : Nat → Block} (hd : CrashedRecoveries s.log.start (stopped (commit s)).disk d)
    {u w : Kernel} (hb : Booted s.log.start d u) (hw : recoverFromLog u = .ok ⟨⟩ w) :
    ((∀ i : Nat, i < s.log.lh.n → w.disk (s.log.lh.block i) = s.disk (s.log.lh.block i)) ∨
      ∀ i : Nat, i < s.log.lh.n → w.disk (s.log.lh.block i) = v (s.log.lh.block i)) ∧
    (s.log.lh.n + 1 ≤ s.power - ((stopped (commit s)).power : Int) →
      ∀ i : Nat, i < s.log.lh.n → w.disk (s.log.lh.block i) = v (s.log.lh.block i)) ∧
    headN (w.disk s.log.start) = 0 ∧
    ∀ b, ¬ InLog s.log.start b → (∀ i : Nat, i < s.log.lh.n → b ≠ s.log.lh.block i) →
      w.disk b = s.disk b := by
  have hsurv := CrashedRecoveries.survives (T := h.txn) hd
  have hrec := recover_survives (T := h.txn) hb
  have hn : ∀ i : Nat, i < s.log.lh.n → i < h.txn.n := fun i hi => by
    show i < s.log.lh.n.toNat
    omega
  have hothers : ∀ {d : Nat → Block}, h.txn.Others d → ∀ b, ¬ InLog s.log.start b →
      (∀ i : Nat, i < s.log.lh.n → b ≠ s.log.lh.block i) → d b = s.disk b := by
    intro d ho b hb hne
    refine ho b hb (fun ⟨i, hi, he⟩ => hne i ?_ he)
    have : i < s.log.lh.n.toNat := hi
    omega
  rcases h.crash with ⟨hun, hpow⟩ | hcom
  · have hfin := (hrec.1 (hsurv.1 hun)).ok hw
    have hold : ∀ b, ¬ InLog s.log.start b → w.disk b = s.disk b := hfin.home
    refine ⟨.inl (fun i hi => hold _ (h.outside i hi)), ?_, hfin.head, fun b hb _ => hold b hb⟩
    intro hlate
    have hpow' : s.power ≤ (stopped (commit s)).power + s.log.lh.n.toNat := hpow
    omega
  · have hfin := (hrec.2 (hsurv.2 hcom)).ok hw
    have hnew : ∀ i : Nat, i < s.log.lh.n → w.disk (s.log.lh.block i) = v (s.log.lh.block i) :=
      fun i hi => hfin.home i (hn i hi)
    exact ⟨.inr hnew, fun _ => hnew, hfin.head, hothers hfin.others⟩

/-- The kernel after `binit` and the assignments of `initlog`. -/
def boot (start dev : Nat) (d : Nat → Block) (power : Nat) : Kernel where
  disk := d
  power := power
  buf := fun _ => ⟨false, 0, 0, false, 0, fun _ => 0⟩
  lru := (List.range nbuf).reverse
  log := ⟨start, 0, false, dev, ⟨0, fun _ => 0⟩⟩

theorem boot_booted (start dev : Nat) (hdev : 0 ≠ dev) (d : Nat → Block) (power : Nat) :
    Booted start d (boot start dev d power) := by
  have hno : ∀ i b, ¬ Holds (boot start dev d power) i b := fun i b hi => hdev hi.2.1
  refine ⟨rfl, rfl, ?_, ?_, ?_, fun _ _ _ _ => rfl, ?_, ?_, ?_, List.nodup_nil⟩
  · intro i _ b hi
    exact absurd hi (hno i b)
  · intro i _
    simp [boot, hdev]
  · intro i b _ hi
    exact absurd hi (hno i b)
  · intro b hb
    exact absurd hb (lt_irrefl 0)
  · intro i b hm
    simp at hm
  · intro i _ hl
    simp [boot] at hl

/-- Block 40 is logged with new contents, and the power lasts for the two writes up to
the header. -/
def oneBlock : Kernel where
  disk := fun _ _ => 0
  power := 2
  buf := fun i => if i = 0 then ⟨true, 1, 40, false, 1, fun _ => 7⟩ else ⟨false, 0, 0, false, 0, fun _ => 0⟩
  lru := List.range nbuf
  log := ⟨2, 0, true, 1, ⟨1, fun _ => 40⟩⟩

theorem oneBlock_ready : ReadyToCommit oneBlock (update (fun _ _ => 0) 40 (fun _ => 7)) := by
  have hold : ∀ i b, Holds oneBlock i b → i = 0 ∧ b = 40 := by
    rintro i b ⟨_, hd, hb⟩
    obtain rfl | hi := eq_or_ne i 0
    · exact ⟨rfl, hb.symm⟩
    · simp [oneBlock, hi] at hd
  refine ⟨rfl, by decide, by decide, ?_, ?_, ?_, ?_⟩
  · intro i j hi hj _
    simp only [oneBlock] at hi hj
    omega
  · intro i hi
    simp only [oneBlock, InLog]
    decide
  · intro i hi
    show 40 < 2 ^ 32
    decide
  · have hpin : (fun b => if (List.range oneBlock.log.lh.n.toNat).any (oneBlock.log.lh.block · == b)
        then 1 else 0) = fun b => if b = 40 then 1 else 0 := by
      funext b
      by_cases hb : b = 40
      · simp [oneBlock, hb]
      · simp [oneBlock, hb, Ne.symm hb]
    rw [hpin]
    refine ⟨?_, ?_, ?_, ?_, ?_, ?_, ?_, List.nodup_nil⟩
    · intro i j b hi hj
      rw [(hold i b hi).1, (hold j b hj).1]
    · intro i _
      by_cases hi : i = 0 <;> simp [oneBlock, hi]
    · intro i b _ hi _
      obtain ⟨rfl, rfl⟩ := hold i b hi
      rw [update_self]
      rfl
    · intro b _ hb _
      by_cases hb' : b = 40
      · simp [hb'] at hb
      · rw [update_of_ne hb']
        rfl
    · intro b hb
      have : b = 40 := by
        by_contra hne
        simp [hne] at hb
      subst this
      exact ⟨0, ⟨by decide, rfl, rfl⟩, rfl⟩
    · intro i b hm
      simp at hm
    · intro i _ hl
      by_cases hi : i = 0 <;> simp [oneBlock, hi] at hl

def completes {α : Type} : EStateM.Result Stop Kernel α → Bool
  | .ok _ _ => true
  | .error _ _ => false

theorem eq_ok_of_completes (h : completes r = true) :
    r = .ok ⟨⟩ (stopped r) := by
  cases r with
  | ok a t => rfl
  | error e t => simp [completes] at h

theorem eq_error_of_not_completes (h : completes r = false) :
    ∃ e, r = .error e (stopped r) := by
  cases r with
  | ok a t => simp [completes] at h
  | error e t => exact ⟨e, rfl⟩

theorem CrashedRecoveries.once {start dev power : Nat} (hdev : 0 ≠ dev) (d : Nat → Block)
    (h : completes (recoverFromLog (boot start dev d power)) = false) :
    CrashedRecoveries start d (stopped (recoverFromLog (boot start dev d power))).disk := by
  obtain ⟨e, he⟩ := eq_error_of_not_completes h
  exact .crash .none (boot_booted start dev hdev d power) he

/-- Power fails again before the first write of the recovery of `oneBlock`. -/
def crashedTwice : Kernel := stopped (recoverFromLog (boot 2 1 (stopped (commit oneBlock)).disk 0))

theorem commit_crash_atomic_oneBlock :
    (stopped (recoverFromLog (boot 2 1 crashedTwice.disk 2))).disk 40 = fun _ => 7 := by
  have hcrash : CrashedRecoveries 2 (stopped (commit oneBlock)).disk crashedTwice.disk :=
    CrashedRecoveries.once (by decide) (stopped (commit oneBlock)).disk (by decide +kernel)
  have hdone := eq_ok_of_completes
    (show completes (recoverFromLog (boot 2 1 crashedTwice.disk 2)) = true by decide +kernel)
  have hpower : (stopped (commit oneBlock)).power = 0 := by decide +kernel
  have h := commit_crash_atomic oneBlock_ready hcrash
    (boot_booted 2 1 (by decide) crashedTwice.disk 2) hdone
  have hlate : oneBlock.log.lh.n + 1 ≤ oneBlock.power - ((stopped (commit oneBlock)).power : Int) := by
    rw [hpower]
    decide
  have hnew := h.2.1 hlate 0 (by decide)
  rwa [show oneBlock.log.lh.block 0 = 40 from rfl, update_self] at hnew

end Xv6.LogCommit
