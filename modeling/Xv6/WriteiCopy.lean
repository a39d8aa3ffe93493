import Xv6.LogAtomicity

namespace Xv6.LogSystem

open Xv6.Lib Xv6.BufferCache Xv6.LogCommit Function

def memmove (dst : Block) (off : Nat) (src : Nat → UInt8) (n : Nat) : Block :=
  fun j => if off ≤ j ∧ j < off + n then src (j - off) else dst j

/-- The loop of `copyin`, copying to `dst + off`. `user` gives the bytes of the page at a virtual address; each
round copies at least one byte. -/
def copyinLoop (user : Nat → Option (Nat → UInt8)) : Nat → Block → Nat → Nat → Nat → Block × Bool
  | 0, dst, _, _, _ => (dst, true)
  | rounds + 1, dst, off, srcva, len =>
    if len = 0 then (dst, true)
    else
      let va0 := pgRoundDown srcva
      match user va0 with
      | none => (dst, false)
      | some page =>
        let n := min (pgsize - (srcva - va0)) len
        copyinLoop user rounds (memmove dst off (fun j => page (srcva - va0 + j)) n) (off + n)
          (va0 + pgsize) (len - n)

def copyin (user : Nat → Option (Nat → UInt8)) (dst : Block) (off srcva len : Nat) : Block × Bool :=
  copyinLoop user len dst off srcva len

/-- A process of the file system also runs the loop of `writei`, whose error exit gives up
the buffer without `log_write`. -/
inductive FsAct where
  | act (a : Act)
  | writei (i : Nat) (user : Nat → Option (Nat → UInt8)) (off src m : Nat)

variable {ι : Type} [DecidableEq ι]

def Listed (lg : Log) (b : Nat) : Prop := (List.range lg.lh.n.toNat).any (lg.lh.block · == b) = true

instance (lg : Log) (b : Nat) : Decidable (Listed lg b) := inferInstanceAs (Decidable (_ = true))

/-- One step of process `p`. When the copy of `writei` fails, the bytes it left in a
listed block count as an update of that block. -/
def fsStep (s : Sys ι) (p : ι) (a : FsAct) : Option (Sys ι) :=
  let pr := s.proc p
  match a with
  | .act a => step s p a
  | .writei i user off src m =>
    if pr.io = .none ∧ pr.pc = .inOp ∧ i ∈ pr.held ∧ i ∉ pr.dirty ∧
        HomeBlock s.k.log.start (s.k.buf i).blockno then
      let (x, copied) := copyin user (s.k.buf i).data off src m
      if copied then
        (returned (setData i x) s.k).map fun (_, k) => s.put p k { pr with dirty := i :: pr.dirty }
      else
        (returned (do setData i x; releasesleep i) s.k).map fun (_, k) =>
          { s.put p k { pr with io := .releasing i, held := pr.held.erase i } with
            txn := if Listed s.k.log (s.k.buf i).blockno then
              s.txn ++ [⟨pr.op, (s.k.buf i).blockno, x⟩] else s.txn }
    else none

/-- Every valid buffer that is not locked and whose block the header does not list agrees
with the disk. -/
def Coherent (k : Kernel) : Prop :=
  ∀ i ∈ k.lru, (k.buf i).dev = k.log.dev → (k.buf i).valid = true → (k.buf i).locked = false →
    ¬ Listed k.log (k.buf i).blockno → (k.buf i).data = k.disk (k.buf i).blockno

/-- A failing copy leaves the buffer as it was, or the block is listed already. -/
def Harmless (s : Sys ι) : FsAct → Prop
  | .act _ => True
  | .writei i user off src m => (copyin user (s.k.buf i).data off src m).2 = false →
      (copyin user (s.k.buf i).data off src m).1 = (s.k.buf i).data ∨ Listed s.k.log (s.k.buf i).blockno

theorem listed_iff {lg : Log} (h0 : 0 ≤ lg.lh.n) (b : Nat) :
    Listed lg b ↔ ∃ j : Nat, (j : Int) < lg.lh.n ∧ lg.lh.block j = b := by
  simp only [Listed, List.any_eq_true, List.mem_range, beq_iff_eq]
  constructor
  · rintro ⟨j, hj, hb⟩
    exact ⟨j, by omega, hb⟩
  · rintro ⟨j, hj, hb⟩
    exact ⟨j, by omega, hb⟩

variable [Fintype ι] {base : Nat → Block} {s t : Sys ι} {p : ι}

omit [DecidableEq ι] in
theorem Inv.coherent (h : Inv base s) : Coherent s.k := by
  intro i hi hd hv hl hn
  rw [listed_iff h.header.nonneg] at hn
  have hpin : s.pin (s.k.buf i).blockno = 0 := by
    refine pin_eq_zero ?_
    rintro ⟨j, hj, hb, -⟩
    exact hn ⟨j, hj, hb⟩
  have hdirty : ¬ s.Dirty i := by
    intro hdi
    rw [(h.cache.locks i hi).mpr (h.cache.owned i hdi).1] at hl
    cases hl
  rw [h.cache.data i _ ⟨hi, hd, rfl⟩ hv hdirty, h.cache.disk _ hpin]

/-- The error exit of `writei` on a listed block: the bytes it wrote are committed with
the transaction. -/
theorem Inv.failListed (h : Inv base s) {i : Nat} {x : Block} (hio : (s.proc p).io = .none)
    (hpc : (s.proc p).pc = .inOp) (hi : i ∈ (s.proc p).held) (hd : i ∉ (s.proc p).dirty)
    (hhome : HomeBlock s.k.log.start (s.k.buf i).blockno)
    (hlisted : ∃ j : Nat, (j : Int) < s.k.log.lh.n ∧ s.k.log.lh.block j = (s.k.buf i).blockno)
    {k k' : Kernel} {y : PUnit} (hset : setData i x s.k = .ok y k)
    (hrel : BufferCache.releasesleep i k = .ok y k') :
    Inv base { s.put p k' { s.proc p with io := .releasing i, held := (s.proc p).held.erase i } with
      txn := s.txn ++ [⟨(s.proc p).op, (s.k.buf i).blockno, x⟩] } := by
  have hm := h.modify hio hpc hi hset
  obtain rfl := modify_ok.mp hset
  have hfilter : (i :: (s.proc p).dirty).filter (· ≠ i) = (s.proc p).dirty := by
    rw [List.filter_cons_of_neg (by simp), List.filter_eq_self]
    rintro j hj
    refine decide_eq_true (fun he => hd (he ▸ hj))
  have hpin : s.pin (s.k.buf i).blockno = 1 :=
    pin_eq_one ((pinned_iff_listed (h.protocol.of_inOp hpc).2.2 _).mpr hlisted)
  have hl := hm.logged (p := p) (i := i) (b := (s.k.buf i).blockno) (r := (s.k.buf i).refcnt)
    (k := { s.k with buf := update s.k.buf i { s.k.buf i with data := x } })
    (by simp [Sys.put, hio]) (by simp [Sys.put, hpc]) (by simp [Sys.put, hi]) (by simp [Sys.put])
    hhome rfl rfl rfl rfl rfl rfl (by simp [Sys.put]) ?_ hm.header ?_
  · simp only [Sys.put, update_self, update_idem, hfilter] at hl
    have hu := hl.unlock (p := p) (i := i) (by simp [hio]) (by simp [hi]) (by simp [hd]) hrel .inOp
      (by simp [hpc]) (by simp [hpc]) (by simp [hpc]) (by simp) (by simp)
    simp only [Sys.put, update_self, update_idem, ← hpc] at hu
    exact hu
  · have hpin' : (s.put p { s.k with buf := update s.k.buf i { s.k.buf i with data := x } }
        { s.proc p with dirty := i :: (s.proc p).dirty }).pin (s.k.buf i).blockno = 1 := by
      rw [← hpin]
      apply pin_put
      · rfl
      · exact fun _ _ => Iff.rfl
    refine le_trans ?_ (Nat.add_le_add_left hpin'.ge _)
    simp [Sys.put]
  · intro c
    constructor
    · exact .inl
    · rintro (hc | rfl)
      · exact hc
      · exact hlisted

theorem Inv.fsStep (h : Inv base s) {a : FsAct} (ha : Harmless s a) (hs : fsStep s p a = some t) :
    Inv base t := by
  cases a with
  | act a => exact (h.step hs).1
  | writei i user off src m =>
    simp only [LogSystem.fsStep, Option.ite_none_right_eq_some] at hs
    obtain ⟨⟨hio, hpc, hi, hd, hhome⟩, hs⟩ := hs
    split at hs
    · obtain ⟨y, k, hrun, rfl⟩ := returned_map hs
      exact h.modify hio hpc hi hrun
    · rename_i hfail
      have hfail := Bool.eq_false_iff.mpr hfail
      obtain ⟨y, k', hrun, rfl⟩ := returned_map hs
      obtain ⟨_, k, hset, hrel⟩ := bind_ok.mp hrun
      by_cases hl : Listed s.k.log (s.k.buf i).blockno
      · rw [if_pos hl]
        exact h.failListed hio hpc hi hd hhome ((listed_iff h.header.nonneg _).mp hl) hset hrel
      · rw [if_neg hl]
        have hsame := (ha hfail).resolve_right hl
        obtain rfl := modify_ok.mp hset
        rw [hsame, update_eq_self] at hrel
        exact h.unlock hio hi hd hrel (s.proc p).pc Iff.rfl rfl (fun _ _ => Iff.rfl) (h.phase p)
          (by simp [hpc])

def FsReaches (ok : Sys ι → ι × FsAct → Prop) (s₀ s : Sys ι) : Prop :=
  ∃ as, Run (fun s (a : ι × FsAct) => fsStep s a.1 a.2) ok s₀ as s

def contents (k : Kernel) (b : Nat) : Block :=
  match k.lru.find? (fun i => (k.buf i).dev == k.log.dev && (k.buf i).blockno == b && (k.buf i).valid) with
  | some i => (k.buf i).data
  | none => k.disk b

structure CacheCoherent (k : Kernel) : Prop where
  coherent : Coherent k
  reread : ∀ b, ¬ Listed k.log b → (∀ i, Holds k i b → (k.buf i).locked = false) → contents k b = k.disk b

theorem Coherent.reread {k : Kernel} (h : Coherent k) {b : Nat} (hb : ¬ Listed k.log b)
    (hl : ∀ i, Holds k i b → (k.buf i).locked = false) : contents k b = k.disk b := by
  unfold contents
  split
  · rename_i i hf
    have hp := List.find?_some hf
    simp only [Bool.and_eq_true, beq_iff_eq] at hp
    obtain ⟨⟨hd, rfl⟩, hv⟩ := hp
    have hm := List.mem_of_find?_eq_some hf
    exact h i hm hd hv (hl i ⟨hm, hd, rfl⟩) hb
  · rfl

theorem cache_coherent {s₀ : Sys ι} (h : Initial base s₀)
    (hr : FsReaches (fun s a => Harmless s a.2) s₀ s) : CacheCoherent s.k := by
  obtain ⟨as, hr⟩ := hr
  have hi : Inv base s := by
    refine hr.invariant (I := Inv base) ?_ h.inv
    rintro s ⟨p, a⟩ t hi ha hs
    exact hi.fsStep ha hs
  exact ⟨hi.coherent, fun b hb hl => hi.coherent.reread hb hl⟩

theorem copyin_first_page {user : Nat → Option (Nat → UInt8)} {src : Nat} (h : user (pgRoundDown src) = none)
    (d : Block) (off m : Nat) : (copyin user d off src m).1 = d := by
  cases m with
  | zero => rfl
  | succ m => simp [copyin, copyinLoop, h]

/-- An executable sufficient condition for a step to be harmless. -/
def harmlessCheck (s : Sys ι) : FsAct → Bool
  | .act _ => true
  | .writei i user off src m => (copyin user (s.k.buf i).data off src m).2 ||
      (user (pgRoundDown src)).isNone || decide (Listed s.k.log (s.k.buf i).blockno)

omit [DecidableEq ι] [Fintype ι] in
theorem harmlessCheck_sound {a : FsAct} (h : harmlessCheck s a = true) : Harmless s a := by
  cases a with
  | act a => trivial
  | writei i user off src m =>
    intro hfail
    simp only [harmlessCheck, hfail, Bool.false_or, Bool.or_eq_true, Option.isNone_iff_eq_none,
      decide_eq_true_eq] at h
    exact h.imp (fun hp => copyin_first_page hp _ _ _) id

/-- A source that starts six bytes before the end of its page; the next page is gone. -/
def lostPage : Nat → Option (Nat → UInt8)
  | 0 => some (fun _ => 7)
  | _ => none

/-- `writei` of ten bytes to block 40, then again from a source that ends too early, then
to block 41 from a source that is gone. -/
def failsHarmlessly : List (Bool × FsAct) := List.map (Prod.mk false)
  [.act .beginOp, .act (.bget 40), .act .acquiresleep, .act .fill, .writei 0 lostPage 0 0 10,
    .act (.logWrite 0), .act (.releasesleep 0), .act .brelseRef, .act (.bget 40), .act .acquiresleep,
    .act .fill, .writei 0 lostPage 10 4090 10, .act .brelseRef, .act (.bget 41), .act .acquiresleep,
    .act .fill, .writei 1 lostPage 0 4096 10, .act .brelseRef]

def afterFailsHarmlessly : Option (Sys Bool) :=
  outcome (fun s (a : Bool × FsAct) => fsStep s a.1 a.2) (fun s a => harmlessCheck s a.2 = true)
    twoProcs failsHarmlessly

theorem afterFailsHarmlessly_isSome : afterFailsHarmlessly.isSome = true := by decide +kernel

theorem cache_coherent_failsHarmlessly :
    CacheCoherent (afterFailsHarmlessly.get afterFailsHarmlessly_isSome).k :=
  cache_coherent twoProcs_initial
    ⟨failsHarmlessly, (Run.of_outcome afterFailsHarmlessly_isSome).mono (fun _ _ => harmlessCheck_sound)⟩

def cutShort : List (Bool × FsAct) := List.map (Prod.mk false)
  [.act .beginOp, .act (.bget 40), .act .acquiresleep, .act .fill, .writei 0 lostPage 0 4090 10,
    .act .brelseRef]

def afterCutShort : Option (Sys Bool) :=
  outcome (fun s (a : Bool × FsAct) => fsStep s a.1 a.2) (fun _ _ => True) twoProcs cutShort

theorem afterCutShort_isSome : afterCutShort.isSome = true := by decide +kernel

/-- The copy has left seven in the buffer of block 40, which is valid, unlocked and not
listed, while the disk still holds zeros. -/
theorem cutShort_incoherent : ∃ s, FsReaches (fun _ _ => True) twoProcs s ∧ ¬ Coherent s.k := by
  refine ⟨_, ⟨cutShort, Run.of_outcome afterCutShort_isSome⟩, fun hc => ?_⟩
  have hdata := hc 0 (by decide +kernel) (by decide +kernel) (by decide +kernel) (by decide +kernel)
    (by decide +kernel)
  have hbyte := congrFun hdata 0
  revert hbyte
  decide +kernel

end Xv6.LogSystem
