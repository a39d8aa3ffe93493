import Xv6.LogSteps

namespace Xv6.LogSystem

open Xv6.Lib Xv6.BufferCache Xv6.LogCommit Function

theorem enterLoop_bufs (lg : Log) (n : Int) (inst : Bool) (tail : Nat) :
    (enterLoop n inst tail).bufs lg = [] := by
  unfold enterLoop
  split_ifs <;> rfl

variable {n : Int} {a b i tail : Nat}

theorem enterLoop_bound {inst inst' : Bool} {tail' : Nat} {st : LoopStage}
    (h : enterLoop n inst tail = .loop inst' tail' st) : (tail' : Int) < n := by
  unfold enterLoop at h
  split_ifs at h
  cases h
  assumption

theorem CommitPc.releases_bufs {c c' : CommitPc} (h : c.releases n = some (i, c'))
    (lg : Log) : i ∈ (c.bufs lg).map Prod.fst ∧ (∀ x ∈ c'.bufs lg, x ∈ c.bufs lg) ∧
      (((c.bufs lg).map Prod.fst).Nodup →
        ((c.bufs lg).map Prod.fst).erase i = (c'.bufs lg).map Prod.fst) := by
  unfold CommitPc.releases at h
  split at h <;> cases h
  · simp [CommitPc.bufs]
  · rename_i tail b
    refine ⟨by simp [CommitPc.bufs], by simp [CommitPc.bufs], fun hn => ?_⟩
    have hne : b ≠ i := by simpa [CommitPc.bufs] using hn
    simp [CommitPc.bufs, hne]
  · rename_i inst tail
    rw [enterLoop_bufs]
    cases inst <;> simp [CommitPc.bufs]
  · rw [enterLoop_bufs]
    simp [CommitPc.bufs]
  · simp [CommitPc.bufs]

theorem CommitPc.releases_bound {c c' : CommitPc}
    (h : c.releases n = some (i, c')) (hb : ∀ inst tail st, c = .loop inst tail st → (tail : Int) < n) :
    ∀ inst tail st, c' = .loop inst tail st → (tail : Int) < n := by
  intro inst tail st hc
  unfold CommitPc.releases at h
  split at h <;> cases h
  · cases hc
    exact hb _ _ _ rfl
  · cases hc
    exact hb _ _ _ rfl
  · exact enterLoop_bound hc
  · exact enterLoop_bound hc
  · cases hc

theorem CommitPc.releases_installed {c c' : CommitPc}
    (h : c.releases n = some (i, c')) (j : Nat) (hj : (j : Int) < n) :
    c'.Installed j ↔ c.Installed j := by
  unfold CommitPc.releases at h
  split at h <;> cases h
  · rfl
  · rfl
  · rename_i inst tail
    unfold enterLoop
    split_ifs with hlt hinst
    · cases inst with
      | false => simp [CommitPc.Installed]
      | true =>
        simp only [CommitPc.Installed]
        omega
    · subst hinst
      simp only [CommitPc.Installed, true_iff]
      omega
    · cases inst <;> simp_all [CommitPc.Installed]
  · unfold enterLoop
    split_ifs with hlt ht
    · simp [CommitPc.Installed]
    · simp only [CommitPc.Installed, iff_false, not_true_eq_false]
      omega
    · exact absurd rfl ht
  · rfl

variable {d : Nat → Block}

theorem CommitPc.Phase.release {c c' : CommitPc} {lg : Log} {v : Nat → Block}
    {txn : List Update} (hp : c.Phase lg d v txn) (h : c.releases lg.lh.n = some (i, c')) :
    c'.Phase lg d v txn := by
  unfold CommitPc.releases at h
  split at h <;> cases h
  · exact hp
  · exact hp
  · rename_i inst tail
    unfold enterLoop
    split_ifs with hlt hinst
    · cases inst <;> exact hp
    · subst hinst
      exact hp.1
    · cases inst
      · exact ⟨hp.1, fun j hj => hp.2 j (by simp only [LoopStage.written]; omega)⟩
      · simp at hinst
  · unfold enterLoop
    split_ifs with hlt ht
    · exact hp
    · exact hp.1
    · exact absurd rfl ht
  · exact hp

variable {ι : Type} {base : Nat → Block} {s : Sys ι} {p : ι} {k : Kernel}
  {x : PUnit}
variable {c c' : CommitPc}

theorem pinned_of_committing (hpc : (s.proc p).pc = .committing c)
    (honly : ∀ q c', (s.proc q).pc = .committing c' → q = p) (b : Nat) :
    s.Pinned b ↔ ∃ j : Nat, (j : Int) < s.k.log.lh.n ∧ s.k.log.lh.block j = b ∧ ¬ c.Installed j := by
  constructor
  · rintro ⟨j, hj, hb, hi⟩
    have := hi p
    rw [hpc] at this
    exact ⟨j, hj, hb, this⟩
  · rintro ⟨j, hj, hb, ht⟩
    refine ⟨j, hj, hb, fun q hi => ?_⟩
    cases hq : (s.proc q).pc with
    | committing c₁ =>
      obtain rfl := honly q c₁ hq
      rw [hpc] at hi
      exact ht hi
    | idle | starting | inOp => simp [hq, Pc.Installed] at hi

variable [Fintype ι] [DecidableEq ι]

theorem Inv.release (h : Inv base s) (hio : (s.proc p).io = .none) (hpc : (s.proc p).pc = .committing c)
    (hrel : c.releases s.k.log.lh.n = some (i, c')) (hrun : BufferCache.releasesleep i s.k = .ok x k) :
    Inv base (s.put p k { s.proc p with
      pc := .committing c', io := .releasing i, held := (s.proc p).held.erase i }) := by
  obtain ⟨hheld, hholds, -, hbound⟩ := (h.procs p).stage c hpc
  rw [hio] at hheld
  obtain ⟨hmem, hsub, herase⟩ := CommitPc.releases_bufs hrel s.k.log
  have hmem' : i ∈ (s.proc p).held := by rw [hheld]; exact hmem
  refine h.unlock hio hmem' (by simp [h.dirty_eq_nil (p := p) (by simp [hpc])]) hrun (.committing c')
    (by simp [hpc]) (by simp [hpc, Pc.commits]) ?_ ?_ ?_
  · intro j hj
    rw [hpc]
    exact CommitPc.releases_installed hrel j hj
  · intro c₁ hc₁
    obtain rfl : c' = c₁ := by simpa using hc₁
    exact (h.phase p c hpc).release hrel
  · intro c₁ hc₁ hk hl
    obtain rfl : c' = c₁ := by simpa using hc₁
    refine ⟨?_, ?_, by simp, by rw [hl]; exact CommitPc.releases_bound hrel hbound⟩
    · have hn : ((c.bufs s.k.log).map Prod.fst).Nodup := by
        have := (h.procs p).nodup
        rwa [hheld] at this
      rw [hl]
      show (s.proc p).held.erase i = _
      rw [hheld]
      exact herase hn
    · intro y hy
      rw [hl] at hy
      refine hk.holds _ _ (refs_pos p (mem_held_refs ?_)) (hholds y (hsub y hy))
      rw [hheld]
      exact List.mem_map_of_mem (hsub y hy)

def Sys.commitTo (s : Sys ι) (p : ι) (k : Kernel) (c : CommitPc) (txn : List Update)
    (history : List (List Update)) : Sys ι :=
  { s.put p k { s.proc p with pc := .committing c } with txn := txn, history := history }

theorem Inv.putCommit (h : Inv base s) (hpc : (s.proc p).pc = .committing c)
    (hio : (s.proc p).io = .none) (txn : List Update) (history : List (List Update))
    (hlog : k.log = s.k.log) (hk : Kept s.refs s.k k)
    (hcache : Shared s.refs s.Locked s.Dirty (s.commitTo p k c' txn history).pin
      ((s.commitTo p k c' txn history).view base) k)
    (hbufs : c'.bufs s.k.log = c.bufs s.k.log)
    (hloop : ∀ inst tail st, c' = .loop inst tail st → ∃ st', c = .loop inst tail st')
    (htxn : ∀ u ∈ txn, u ∈ s.txn) (hdurable : Durable s.k.log.start k.disk (replay base history))
    (hphase : c'.Phase s.k.log k.disk ((s.commitTo p k c' txn history).view base) txn) :
    Inv base (s.commitTo p k c' txn history) := by
  obtain ⟨hcom, -, -, honly⟩ := h.protocol.of_committing hpc
  refine ⟨hcache.congr (fun j => refs_put (k := k) (a := 0) (b := 0) rfl)
    (fun j => locked_put_same (k := k) rfl) (fun j => dirty_put_same (k := k) rfl) (fun _ => rfl)
    (fun _ => rfl), excl_put (k := k) h.excl (fun q hq i hi => h.not_held hi q hq), ?_, ?_, ?_, ?_, ?_, ?_, ?_⟩
  · intro q
    have hq := (h.procs q).kept hk (fun i hi => refs_pos q hi) (by simp [hlog])
    obtain rfl | hqp := eq_or_ne q p
    · obtain ⟨hheld, hholds, -, hbound⟩ := hq.stage c hpc
      simp only [Sys.commitTo, Sys.put, update_self]
      refine ⟨hq.nodup, hq.valid, hq.filling, hq.dirty,
        fun hd => absurd (h.dirty_eq_nil (p := q) (by simp [hpc])) hd, ?_⟩
      intro c₁ hc₁
      obtain rfl : c' = c₁ := by simpa using hc₁
      rw [hlog] at hheld hholds hbound
      refine ⟨by rw [hlog, hbufs]; exact hheld, by rw [hlog, hbufs]; exact hholds, by simp [hio], ?_⟩
      intro inst tail st hst
      obtain ⟨st', hst'⟩ := hloop inst tail st hst
      rw [hlog]
      exact hbound inst tail st' hst'
    · simpa only [Sys.commitTo, Sys.put, update_of_ne hqp] using hq
  · have hmove : Protocol (s.put p k { s.proc p with pc := .committing c' }) :=
      h.protocol.put hlog (by simp [Proc.active, hpc]) (by simp [Proc.commits, Pc.commits, hpc])
    exact ⟨hmove.outstanding, hmove.committing, hmove.exclusive, hmove.empty⟩
  · simp only [Sys.commitTo, Sys.put, hlog]
    exact h.header
  · simp only [Sys.commitTo, Sys.put, hlog]
    exact fun u hu => h.listed u (htxn u hu)
  · simp only [Sys.commitTo, Sys.put, hlog]
    exact hdurable
  · intro q c₁ hq
    have hqp : q = p := by
      by_contra hqp
      simp only [Sys.commitTo, Sys.put, update_of_ne hqp] at hq
      exact hqp (honly q c₁ hq)
    subst hqp
    obtain rfl : c' = c₁ := by simpa [Sys.commitTo, Sys.put] using hq
    show c'.Phase k.log k.disk _ txn
    rw [hlog]
    exact hphase
  · intro hq
    simp [Sys.commitTo, Sys.put, hlog, hcom] at hq

theorem copyBlock_ok {s t : Kernel} {dst src : Nat} (h : copyBlock dst src s = .ok x t) :
    t = { s with
      disk := update s.disk (s.buf dst).blockno (s.buf src).data
      power := s.power - 1
      buf := update s.buf dst { s.buf dst with data := (s.buf src).data } } := by
  simp only [copyBlock, setData, bind_ok, get_ok, modify_ok] at h
  obtain ⟨_, _, ⟨rfl, rfl⟩, _, _, rfl, h⟩ := h
  rw [← bwrite_ok h]
  simp only [update_self]

theorem storeHead_ok {s t : Kernel} (h : storeHead i s = .ok x t) :
    t = { s with
      disk := update s.disk (s.buf i).blockno (putHead s.log.lh (s.buf i).data)
      power := s.power - 1
      buf := update s.buf i { s.buf i with data := putHead s.log.lh (s.buf i).data } } := by
  simp only [storeHead, setData, bind_ok, get_ok, modify_ok] at h
  obtain ⟨_, _, ⟨rfl, rfl⟩, _, _, rfl, h⟩ := h
  rw [← bwrite_ok h]
  simp only [update_self]

theorem Inv.commit_buf (h : Inv base s) (hpc : (s.proc p).pc = .committing c)
    (hio : (s.proc p).io = .none) (hi : (i, b) ∈ c.bufs s.k.log) :
    i ∈ (s.proc p).held ∧ Holds s.k i b ∧ (s.k.buf i).valid = true ∧ ¬ s.Dirty i ∧
      (s.k.buf i).data = s.view base b := by
  obtain ⟨hheld, hholds, -, -⟩ := (h.procs p).stage c hpc
  obtain ⟨-, -, hno, -⟩ := h.protocol.of_committing hpc
  have hmem : i ∈ (s.proc p).held := by
    rw [hheld]
    exact List.mem_append_right _ (List.mem_map_of_mem (f := Prod.fst) hi)
  have hv := (h.procs p).valid i hmem (by simp [hio])
  have hd := h.not_dirty hmem (by simp [h.dirty_eq_nil (p := p) (hno p)])
  exact ⟨hmem, hholds _ hi, hv, hd, h.cache.data i b (hholds _ hi) hv hd⟩

omit [Fintype ι] in
theorem Sys.pin_commitTo (hpc : (s.proc p).pc = .committing c) (hlog : k.log = s.k.log)
    (txn : List Update) (history : List (List Update))
    (hinst : ∀ j : Nat, (j : Int) < s.k.log.lh.n → (c'.Installed j ↔ c.Installed j)) (b : Nat) :
    (s.commitTo p k c' txn history).pin b = s.pin b := by
  show (s.put p k { s.proc p with pc := .committing c' }).pin b = s.pin b
  refine pin_put (by rw [hlog]) (fun j hj => ?_) b
  rw [hpc]
  exact hinst j hj

theorem HeaderOk.inLog {start : Nat} {lh : LogHeader} (h : HeaderOk start lh) {j : Nat}
    (hj : (j : Int) < lh.n) : InLog start (start + j + 1) := by
  have := h.fits
  constructor <;> omega

theorem Inv.writeLog (h : Inv base s) (hio : (s.proc p).io = .none)
    (hpc : (s.proc p).pc = .committing (.loop false tail (.two a b))) (hrun : copyBlock a b s.k = .ok x k) :
    Inv base (s.put p k { s.proc p with pc := .committing (.loop false tail (.ready a b)) }) := by
  have hk := copyBlock_ok hrun
  obtain ⟨hma, hha, hva, hda, -⟩ := h.commit_buf hpc hio (i := a) (b := s.k.log.start + tail + 1)
    (by simp [CommitPc.bufs])
  obtain ⟨-, -, -, -, hxb⟩ := h.commit_buf hpc hio (i := b) (b := s.k.log.lh.block tail)
    (by simp [CommitPc.bufs])
  have hbound := ((h.procs p).stage _ hpc).bound _ _ _ rfl
  have hin := h.header.inLog hbound
  have hne : ∀ {c : Nat}, ¬ InLog s.k.log.start c → c ≠ s.k.log.start + tail + 1 := by
    rintro c hc rfl
    exact hc hin
  rw [hha.2.2, hxb] at hk
  have hlog : k.log = s.k.log := by rw [hk]
  have hdisk : k.disk = update s.k.disk (s.k.log.start + tail + 1)
      (s.view base (s.k.log.lh.block tail)) := by rw [hk]
  have hstart : s.k.log.start ≠ s.k.log.start + tail + 1 := by omega
  have hview : ∀ c, (s.commitTo p k (.loop false tail (.ready a b)) s.txn s.history).view base c =
      update (s.view base) (s.k.log.start + tail + 1) (s.view base (s.k.log.lh.block tail)) c := by
    intro c
    simp only [Sys.view, Sys.commitTo, Sys.put, hlog, hdisk]
    by_cases hc : c = s.k.log.start + tail + 1
    · subst hc
      simp [hin]
    · simp only [update_of_ne hc, Sys.view]
  obtain ⟨hcache, hkept⟩ := h.cache.write ⟨p, hma⟩ hda hva hha.2.2
    (s.view base (s.k.log.lh.block tail)) _ hview hk
  obtain ⟨hhead, hlogged⟩ := h.phase p _ hpc
  refine h.putCommit hpc hio s.txn s.history hlog hkept (hcache.congr (fun _ => rfl) (fun _ => Iff.rfl)
    (fun _ => Iff.rfl) (Sys.pin_commitTo hpc hlog _ _ (fun j _ => Iff.rfl)) (fun _ => rfl)) rfl ?_
    (fun _ hu => hu) ?_ ?_
  · intro inst tail' st hst
    cases hst
    exact ⟨_, rfl⟩
  · refine ⟨?_, ?_, ?_⟩
    · rw [hdisk, update_of_ne hstart]
      exact h.durable.header
    · rw [hdisk, update_of_ne hstart, hhead]
      intro j hj
      omega
    · intro c hc hnot
      rw [hdisk, update_of_ne (hne hc)]
      exact h.durable.home c hc (by rw [hhead]; intro j hj; omega)
  · refine ⟨by rw [hdisk, update_of_ne hstart]; exact hhead, ?_⟩
    intro j hj
    have hj : j ≤ tail := Nat.lt_succ_iff.mp hj
    have hhome : ∀ i : Nat, (i : Int) < s.k.log.lh.n → s.k.log.lh.block i ≠ s.k.log.start + tail + 1 :=
      fun i hi => hne (h.header.home i hi).1
    rw [hdisk, hview, update_of_ne (hhome j (by omega))]
    obtain rfl | hjt := eq_or_ne j tail
    · rw [update_self]
    · rw [update_of_ne (by omega)]
      exact hlogged j (by simp only [LoopStage.written]; omega)

theorem Inv.install (h : Inv base s) (hio : (s.proc p).io = .none)
    (hpc : (s.proc p).pc = .committing (.loop true tail (.two a b))) (hrun : copyBlock b a s.k = .ok x k) :
    Inv base (s.put p k { s.proc p with pc := .committing (.loop true tail (.copied a b)) }) := by
  have hk := copyBlock_ok hrun
  obtain ⟨-, -, -, -, hxa⟩ := h.commit_buf hpc hio (i := a) (b := s.k.log.start + tail + 1)
    (by simp [CommitPc.bufs])
  obtain ⟨hmb, hhb, hvb, hdb, -⟩ := h.commit_buf hpc hio (i := b) (b := s.k.log.lh.block tail)
    (by simp [CommitPc.bufs])
  have hbound := ((h.procs p).stage _ hpc).bound _ _ _ rfl
  have hin := h.header.inLog hbound
  have hhome := (h.header.home tail hbound).1
  obtain ⟨htxn, hhead, hlogged⟩ := h.phase p _ hpc
  have hx : (s.k.buf a).data = s.view base (s.k.log.lh.block tail) := by
    rw [hxa, ← hlogged tail (by omega)]
    exact if_pos hin
  rw [hhb.2.2, hx] at hk
  have hlog : k.log = s.k.log := by rw [hk]
  have hdisk : k.disk = update s.k.disk (s.k.log.lh.block tail)
      (s.view base (s.k.log.lh.block tail)) := by rw [hk]
  have hne : ∀ {c : Nat}, InLog s.k.log.start c → c ≠ s.k.log.lh.block tail := by
    rintro c hc rfl
    exact hhome hc
  have hstart : s.k.log.start ≠ s.k.log.lh.block tail :=
    hne ⟨le_rfl, Nat.le_add_right _ _⟩
  have hview : (s.commitTo p k (.loop true tail (.copied a b)) s.txn s.history).view base = s.view base := by
    funext c
    simp only [Sys.view, Sys.commitTo, Sys.put, hlog, hdisk]
    by_cases hc : InLog s.k.log.start c
    · simp only [hc, ↓reduceIte, update_of_ne (hne hc)]
    · simp only [hc, ↓reduceIte]
  obtain ⟨hcache, hkept⟩ := h.cache.write (V := s.view base) ⟨p, hmb⟩ hdb hvb hhb.2.2
    (s.view base (s.k.log.lh.block tail)) _ (fun c => by rw [update_eq_self]) hk
  have hhead' : HeadOnDisk s.k.log k.disk := by
    refine ⟨?_, ?_⟩ <;> rw [hdisk, update_of_ne hstart]
    · exact hhead.n
    · exact hhead.block
  refine h.putCommit hpc hio s.txn s.history hlog hkept (hcache.congr (fun _ => rfl) (fun _ => Iff.rfl)
    (fun _ => Iff.rfl) (Sys.pin_commitTo hpc hlog _ _ (fun j _ => Iff.rfl)) (by simp [hview])) rfl ?_
    (fun _ hu => hu) ?_ ?_
  · intro inst tail' st hst
    cases hst
    exact ⟨_, rfl⟩
  · refine ⟨?_, ?_, ?_⟩
    · rw [hdisk, update_of_ne hstart]
      exact h.durable.header
    · intro j hj
      rw [hdisk, update_of_ne hstart] at hj ⊢
      have hj' : (j : Int) < s.k.log.lh.n := hhead.n ▸ hj
      rw [update_of_ne (hne (h.header.inLog hj'))]
      exact h.durable.log j hj
    · intro c hc hnot
      rw [hdisk, update_of_ne hstart] at hnot
      have hct : c ≠ s.k.log.lh.block tail := by
        rintro rfl
        exact hnot tail (by rw [hhead.n]; exact hbound) (hhead.block tail hbound)
      rw [hdisk, update_of_ne hct]
      exact h.durable.home c hc hnot
  · refine ⟨htxn, hhead', ?_, ?_⟩
    · intro j hj
      rw [hdisk, hview, update_of_ne (hne (h.header.inLog (by omega)))]
      exact hlogged j hj
    · rw [hdisk, hview, update_self]

theorem HeaderOk.headOnDisk {lg : Log} (h : HeaderOk lg.start lg.lh) {x : Block}
    (hd : d lg.start = putHead lg.lh x) : HeadOnDisk lg d := by
  have h0 := h.nonneg
  have h1 := h.fits
  have hb : logBlocks = 30 := rfl
  refine ⟨?_, fun j hj => ?_⟩
  · rw [hd]
    exact headN_putHead _ _ h0 (by omega)
  · rw [hd]
    exact headBlock_putHead _ _ _ hj (h.home j hj).2

theorem HeadOnDisk.header {lg : Log} (h : HeadOnDisk lg d)
    (hlg : HeaderOk lg.start lg.lh) : HeaderOk lg.start ⟨headN (d lg.start), headBlock (d lg.start)⟩ := by
  rw [h.n]
  refine ⟨hlg.nonneg, hlg.fits, ?_, ?_⟩
  · intro i j hi hj he
    simp only [h.block i hi, h.block j hj] at he
    exact hlg.distinct i j hi hj he
  · intro j hj
    simpa only [h.block j hj] using hlg.home j hj

theorem HeaderOk.empty {start : Nat} (block : Nat → Nat) : HeaderOk start ⟨0, block⟩ :=
  ⟨le_rfl, Int.natCast_nonneg _, fun i _ hi => absurd hi (by simp), fun j hj => absurd hj (by simp)⟩

theorem replay_append (base : Nat → Block) (history : List (List Update)) (txn : List Update) :
    replay base (history ++ [txn]) = applyUpdates txn (replay base history) := by
  simp [replay]

theorem applyUpdates_of_not_mem {us : List Update} (h : ∀ u ∈ us, u.block ≠ b)
    (d : Nat → Block) : applyUpdates us d b = d b := by
  induction us generalizing d with
  | nil => rfl
  | cons u us ih =>
    have hu : b ≠ u.block := (h u (by simp)).symm
    show applyUpdates us (update d u.block u.data) b = d b
    rw [ih (fun u' hu' => h u' (List.mem_cons_of_mem _ hu')), update_of_ne hu]

/-- The header reaches the disk: the commit point. -/
theorem Inv.commitPoint (h : Inv base s) (hio : (s.proc p).io = .none)
    (hpc : (s.proc p).pc = .committing (.head false (.one a))) (hrun : storeHead a s.k = .ok x k) :
    Inv base { s.put p k { s.proc p with pc := .committing (.head false (.ready a)) } with
      txn := [], history := s.history ++ [s.txn] } := by
  have hk := storeHead_ok hrun
  obtain ⟨hma, hha, hva, hda, -⟩ := h.commit_buf hpc hio (i := a) (b := s.k.log.start)
    (by simp [CommitPc.bufs])
  rw [hha.2.2] at hk
  have hlog : k.log = s.k.log := by rw [hk]
  have hdisk : k.disk = update s.k.disk s.k.log.start
      (putHead s.k.log.lh (s.k.buf a).data) := by rw [hk]
  have hin : InLog s.k.log.start s.k.log.start := ⟨le_rfl, Nat.le_add_right _ _⟩
  have hne : ∀ {c : Nat}, ¬ InLog s.k.log.start c → c ≠ s.k.log.start := by
    rintro c hc rfl
    exact hc hin
  have hview : ∀ c, (s.commitTo p k (.head false (.ready a)) [] (s.history ++ [s.txn])).view base c =
      update (s.view base) s.k.log.start (putHead s.k.log.lh (s.k.buf a).data) c := by
    intro c
    simp only [Sys.view, Sys.commitTo, Sys.put, hlog, hdisk, replay_append]
    by_cases hc : c = s.k.log.start
    · subst hc
      simp [hin]
    · simp only [update_of_ne hc, Sys.view]
      rfl
  obtain ⟨hcache, hkept⟩ := h.cache.write ⟨p, hma⟩ hda hva hha.2.2 _ _ hview hk
  obtain ⟨hhead, hlogged⟩ := h.phase p _ hpc
  have hhead' : HeadOnDisk s.k.log k.disk :=
    h.header.headOnDisk (x := (s.k.buf a).data) (by rw [hdisk, update_self])
  have hlog' : ∀ j : Nat, (j : Int) < s.k.log.lh.n →
      k.disk (s.k.log.start + j + 1) = s.view base (s.k.log.lh.block j) := by
    intro j hj
    rw [hdisk, update_of_ne (by omega)]
    exact hlogged j (by omega)
  have hhome : ∀ c, ¬ InLog s.k.log.start c →
      s.view base c = replay base (s.history ++ [s.txn]) c := by
    intro c hc
    rw [replay_append]
    exact if_neg hc
  refine h.putCommit hpc hio [] (s.history ++ [s.txn]) hlog hkept (hcache.congr (fun _ => rfl)
    (fun _ => Iff.rfl) (fun _ => Iff.rfl) (Sys.pin_commitTo hpc hlog _ _ (fun j _ => Iff.rfl))
    (fun _ => rfl)) rfl (by simp) (by simp) ?_ ⟨rfl, hhead', ?_⟩
  · refine ⟨hhead'.header h.header, ?_, ?_⟩
    · intro j hj
      rw [hhead'.n] at hj
      rw [hhead'.block j hj, hlog' j hj, hhome _ (h.header.home j hj).1]
    · intro c hc hnot
      have hnl : ∀ u ∈ s.txn, u.block ≠ c := by
        rintro u hu rfl
        obtain ⟨j, hj, hjb⟩ := h.listed u hu
        exact hnot j (by rw [hhead'.n]; exact hj) (by rw [hhead'.block j hj]; exact hjb)
      rw [hdisk, update_of_ne (hne hc), replay_append, applyUpdates_of_not_mem hnl]
      exact h.durable.home c hc (by rw [hhead]; intro j hj; omega)
  · intro j hj
    have hj : (j : Int) < s.k.log.lh.n := by omega
    rw [hlog' j hj, hview, update_of_ne (hne (h.header.home j hj).1)]

theorem Inv.erase (h : Inv base s) (hio : (s.proc p).io = .none)
    (hpc : (s.proc p).pc = .committing (.head true (.one a))) (hrun : storeHead a s.k = .ok x k) :
    Inv base (s.put p k { s.proc p with pc := .committing (.head true (.ready a)) }) := by
  have hk := storeHead_ok hrun
  obtain ⟨hma, hha, hva, hda, -⟩ := h.commit_buf hpc hio (i := a) (b := s.k.log.start)
    (by simp [CommitPc.bufs])
  rw [hha.2.2] at hk
  have hlog : k.log = s.k.log := by rw [hk]
  have hdisk : k.disk = update s.k.disk s.k.log.start
      (putHead s.k.log.lh (s.k.buf a).data) := by rw [hk]
  have hin : InLog s.k.log.start s.k.log.start := ⟨le_rfl, Nat.le_add_right _ _⟩
  have hview : ∀ c, (s.commitTo p k (.head true (.ready a)) s.txn s.history).view base c =
      update (s.view base) s.k.log.start (putHead s.k.log.lh (s.k.buf a).data) c := by
    intro c
    simp only [Sys.view, Sys.commitTo, Sys.put, hlog, hdisk]
    by_cases hc : c = s.k.log.start
    · subst hc
      simp [hin]
    · simp only [update_of_ne hc, Sys.view]
  obtain ⟨hcache, hkept⟩ := h.cache.write ⟨p, hma⟩ hda hva hha.2.2 _ _ hview hk
  obtain ⟨htxn, hn⟩ := h.phase p _ hpc
  have hhead : headN (k.disk s.k.log.start) = 0 := by
    rw [hdisk, update_self, headN_putHead _ _ (by omega) (by omega), hn]
  refine h.putCommit hpc hio s.txn s.history hlog hkept (hcache.congr (fun _ => rfl)
    (fun _ => Iff.rfl) (fun _ => Iff.rfl) (Sys.pin_commitTo hpc hlog _ _ (fun j _ => Iff.rfl))
    (fun _ => rfl)) rfl (by simp) (fun _ hu => hu) ?_ ⟨htxn, hn, hhead⟩
  refine ⟨hhead ▸ HeaderOk.empty _, fun j hj => by omega, fun c hc _ => ?_⟩
  have hne : c ≠ s.k.log.start := by
    rintro rfl
    exact hc hin
  have hpin : s.pin c = 0 := by
    refine pin_eq_zero ?_
    rintro ⟨j, hj, -⟩
    omega
  rw [hdisk, update_of_ne hne, h.cache.disk c hpin, Sys.view, if_neg hc, htxn]
  rfl

theorem Inv.bunpin (h : Inv base s) (hio : (s.proc p).io = .none)
    (hpc : (s.proc p).pc = .committing (.loop true tail (.copied a b)))
    (hrun : BufferCache.bunpin b s.k = .ok x k) :
    Inv base (s.put p k { s.proc p with pc := .committing (.loop true tail (.ready a b)) }) := by
  obtain ⟨-, hhb, -, -, -⟩ := h.commit_buf hpc hio (i := b) (b := s.k.log.lh.block tail)
    (by simp [CommitPc.bufs])
  obtain ⟨-, -, -, honly⟩ := h.protocol.of_committing hpc
  have hbound := ((h.procs p).stage _ hpc).bound _ _ _ rfl
  obtain ⟨htxn, hhead, hlogged, hcopied⟩ := h.phase p _ hpc
  have hk := bunpin_ok.mp hrun
  have hlog : k.log = s.k.log := by rw [← hk]
  have hdisk : k.disk = s.k.disk := by rw [← hk]
  have hview : (s.commitTo p k (.loop true tail (.ready a b)) s.txn s.history).view base = s.view base := by
    funext c
    simp only [Sys.view, Sys.commitTo, Sys.put, hlog, hdisk]
  have hinst : ∀ c j : Nat, ((j : Int) < s.k.log.lh.n ∧ s.k.log.lh.block j = c ∧ ¬ j ≤ tail) ↔
      ((j : Int) < s.k.log.lh.n ∧ s.k.log.lh.block j = c ∧ ¬ j < tail) ∧ c ≠ s.k.log.lh.block tail := by
    intro c j
    constructor
    · rintro ⟨hj, hc, ht⟩
      refine ⟨⟨hj, hc, by omega⟩, fun he => ?_⟩
      have := h.header.distinct j tail hj hbound (hc.trans he)
      omega
    · rintro ⟨⟨hj, hc, ht⟩, hne⟩
      refine ⟨hj, hc, fun hle => hne ?_⟩
      obtain rfl : j = tail := by omega
      exact hc.symm
  have hbefore := pinned_of_committing hpc honly
  have hafter := pinned_of_committing (s := s.commitTo p k (.loop true tail (.ready a b)) s.txn s.history)
    (p := p) (c := .loop true tail (.ready a b)) (by simp [Sys.commitTo, Sys.put]) (by
      intro q c₁ hq
      by_contra hqp
      simp only [Sys.commitTo, Sys.put, update_of_ne hqp] at hq
      exact hqp (honly q c₁ hq))
  have hpin : ∀ c, (s.commitTo p k (.loop true tail (.ready a b)) s.txn s.history).pin c =
      update s.pin (s.k.log.lh.block tail) 0 c := by
    intro c
    have hiff : (s.commitTo p k (.loop true tail (.ready a b)) s.txn s.history).Pinned c ↔
        s.Pinned c ∧ c ≠ s.k.log.lh.block tail := by
      rw [hafter, hbefore]
      simp only [Sys.commitTo, Sys.put, hlog, CommitPc.Installed, hinst, exists_and_right]
    by_cases hc : c = s.k.log.lh.block tail
    · subst hc
      rw [update_self]
      exact pin_eq_zero (fun hp => (hiff.mp hp).2 rfl)
    · rw [update_of_ne hc]
      by_cases hp : s.Pinned c
      · rw [pin_eq_one hp, pin_eq_one (hiff.mpr ⟨hp, hc⟩)]
      · rw [pin_eq_zero hp, pin_eq_zero (fun hp' => hp (hiff.mp hp').1)]
  have hone : s.pin (s.k.log.lh.block tail) = 1 :=
    pin_eq_one ((hbefore _).mpr ⟨tail, hbound, rfl, Nat.lt_irrefl tail⟩)
  obtain ⟨hcache, -, hkept⟩ := bunpin_shared h.cache hrun hhb hone hcopied hpin
  refine h.putCommit hpc hio s.txn s.history hlog hkept (hcache.congr (fun _ => rfl) (fun _ => Iff.rfl)
    (fun _ => Iff.rfl) (fun _ => rfl) (by simp [hview])) rfl ?_ (fun _ hu => hu)
    (by rw [hdisk]; exact h.durable) (by rw [hdisk, hview]; exact ⟨htxn, hhead, hlogged⟩)
  intro inst tail' st hst
  cases hst
  exact ⟨_, rfl⟩

theorem Inv.clear (h : Inv base s) (hio : (s.proc p).io = .none)
    (hpc : (s.proc p).pc = .committing .clear) (hrun : clearHead s.k = .ok x k) :
    Inv base (s.put p k { s.proc p with pc := .committing (.head true .start) }) := by
  obtain rfl := modify_ok.mp hrun
  obtain ⟨hcom, hout, -, honly⟩ := h.protocol.of_committing hpc
  have htxn : s.txn = [] := h.phase p _ hpc
  obtain ⟨hc, hk⟩ := h.cache.setLog { s.k.log with lh := { s.k.log.lh with n := 0 } } rfl
  have hheld : (s.proc p).held = [] := by
    rw [((h.procs p).stage _ hpc).held, hio]
    rfl
  refine ⟨hc.congr (fun j => refs_put (a := 0) (b := 0) rfl) (fun j => locked_put_same rfl)
    (fun j => dirty_put_same rfl) ?_ (fun _ => rfl),
    excl_put h.excl (fun q hq i hi => h.not_held hi q hq), ?_, ?_, ?_, ?_, h.durable, ?_, ?_⟩
  · intro b
    rw [pin_eq_zero (s := s), pin_eq_zero]
    · rintro ⟨j, hj, -⟩
      have hj : (j : Int) < 0 := hj
      omega
    · rw [pinned_of_committing hpc honly]
      rintro ⟨j, -, -, hi⟩
      exact hi trivial
  · intro q
    obtain rfl | hqp := eq_or_ne q p
    · obtain ⟨hnodup, hvalid, hfilling, hdirty, hchanging, -⟩ := h.procs q
      simp only [Sys.put, update_self]
      refine ⟨hnodup, hvalid, hfilling, hdirty,
        fun hd => absurd (h.dirty_eq_nil (p := q) (by simp [hpc])) hd, ?_⟩
      intro c₁ hc₁
      obtain rfl : CommitPc.head true .start = c₁ := by simpa using hc₁
      exact ⟨by simp [hheld, hio, Io.fills, CommitPc.bufs], by simp [CommitPc.bufs], by simp [hio], by simp⟩
    · simp only [Sys.put, update_of_ne hqp]
      exact (h.procs q).kept hk (fun i hi => refs_pos q hi) (fun c₁ hc₁ => absurd (honly q c₁ hc₁) hqp)
  · exact h.protocol.move (by simp [Proc.active, hpc]) (by simp [Proc.commits, Pc.commits, hpc])
      (fun _ => hout) (fun _ _ => rfl)
  · exact HeaderOk.empty _
  · intro u hu
    have hu : u ∈ s.txn := hu
    simp [htxn] at hu
  · intro q c₁ hq
    have hqp : q = p := by
      by_contra hqp
      simp only [Sys.put, update_of_ne hqp] at hq
      exact hqp (honly q c₁ hq)
    subst hqp
    obtain rfl : CommitPc.head true .start = c₁ := by simpa [Sys.put] using hq
    exact ⟨htxn, rfl⟩
  · intro hq
    simp [Sys.put, hcom] at hq

end Xv6.LogSystem
