import Xv6.LogInvariant

namespace Xv6.LogSystem

open Xv6.Lib Xv6.BufferCache Xv6.LogCommit Function

variable {ι : Type} {base : Nat → Block} {s : Sys ι} {p : ι} {k : Kernel}
  {b i tail : Nat} {x : PUnit} {c : CommitPc}

theorem pinned_iff_listed (hno : ∀ q c, (s.proc q).pc ≠ .committing c) (b : Nat) :
    s.Pinned b ↔ ∃ j : Nat, (j : Int) < s.k.log.lh.n ∧ s.k.log.lh.block j = b := by
  have hinst : ∀ j q, ¬ (s.proc q).pc.Installed j := by
    intro j q
    cases hq : (s.proc q).pc with
    | committing c => exact absurd hq (hno q c)
    | idle | starting | inOp => simp [Pc.Installed]
  constructor
  · rintro ⟨j, hj, hb, -⟩
    exact ⟨j, hj, hb⟩
  · rintro ⟨j, hj, hb⟩
    exact ⟨j, hj, hb, hinst j⟩

theorem pin_le_one (b : Nat) : s.pin b ≤ 1 := by
  by_cases hb : s.Pinned b
  · rw [pin_eq_one hb]
  · rw [pin_eq_zero hb]
    exact Nat.zero_le 1

variable [Fintype ι]

theorem Inv.not_dirty (h : Inv base s) (hi : i ∈ (s.proc p).held)
    (hd : i ∉ (s.proc p).dirty) : ¬ s.Dirty i := by
  rintro ⟨q, hq⟩
  have := h.excl q p i ((h.procs q).dirty i hq) hi
  exact hd (this ▸ hq)

theorem Protocol.of_inOp (h : Protocol s) (hpc : (s.proc p).pc = .inOp) :
    0 < s.k.log.outstanding ∧ s.k.log.committing = false ∧ ∀ q c, (s.proc q).pc ≠ .committing c := by
  have ho := h.outstanding
  have hle := le_total Proc.active s.proc p
  simp only [Proc.active, hpc, ↓reduceIte] at hle
  have hc : s.k.log.committing = false := by
    by_contra hc
    have := h.exclusive (by simpa using hc)
    omega
  have hnone := h.committing
  rw [hc, if_neg (by simp), total_eq_zero] at hnone
  refine ⟨by omega, hc, fun q c hq => ?_⟩
  have := hnone q
  simp [Proc.commits, hq, Pc.commits] at this

theorem Inv.setNextOp (h : Inv base s) (n : Nat) : Inv base { s with nextOp := n } :=
  ⟨h.cache, h.excl, h.procs, ⟨h.protocol.outstanding, h.protocol.committing, h.protocol.exclusive,
    h.protocol.empty⟩, h.header, h.listed, h.durable, h.phase, h.quiet⟩

theorem Inv.dirty_eq_nil (h : Inv base s) (hpc : (s.proc p).pc ≠ .inOp) : (s.proc p).dirty = [] := by
  by_contra hne
  exact hpc ((h.procs p).changing hne)

theorem Inv.enterCommit_phase (h : Inv base s) (hcom : s.k.log.committing = false) :
    (enterCommit s.k.log.lh.n).Phase s.k.log s.k.disk (s.view base) s.txn := by
  have hn := h.header.nonneg
  unfold enterCommit
  split_ifs with hpos
  · rw [enterLoop, if_pos (by simpa using hpos)]
    exact ⟨h.quiet hcom, fun j hj => absurd hj (Nat.not_lt_zero j)⟩
  · refine ⟨List.eq_nil_iff_forall_not_mem.mpr (fun u hu => ?_), by omega, h.quiet hcom⟩
    obtain ⟨j, hj, -⟩ := h.listed u hu
    omega

variable [DecidableEq ι]

theorem returned_eq_some {α : Type} {m : K α} {k t : Kernel} {a : α} :
    returned m k = some (a, t) ↔ m k = .ok a t := by
  unfold returned
  cases m k with
  | ok a u => simp
  | error e u => simp

theorem returned_map {α β : Type} {m : K α} {f : α × Kernel → β} {t : β}
    (h : (returned m k).map f = some t) : ∃ a k', m k = .ok a k' ∧ f (a, k') = t := by
  obtain ⟨⟨a, k'⟩, hm, rfl⟩ := Option.map_eq_some_iff.mp h
  exact ⟨a, k', returned_eq_some.mp hm, rfl⟩

theorem returned_if {α β : Type} {m : K α} {f : α × Kernel → β} {t : β} {c : Prop} [Decidable c]
    (h : (if c then (returned m k).map f else none) = some t) : c ∧ ∃ a k', m k = .ok a k' ∧ f (a, k') = t := by
  obtain ⟨hc, h⟩ := Option.ite_none_right_eq_some.mp h
  exact ⟨hc, returned_map h⟩

theorem Inv.bget (h : Inv base s) (hio : (s.proc p).io = .none)
    (hread : (s.proc p).pc.mayRead s.k.log b = true) (hrun : bgetRef s.k.log.dev b s.k = .ok i k) :
    Inv base (s.put p k { s.proc p with io := .acquiring i }) ∧ k.log = s.k.log := by
  obtain ⟨hc, hi, ⟨hd, -, hl⟩, hk⟩ := bgetRef_shared h.cache hrun
    (R := (s.put p k { s.proc p with io := .acquiring i }).refs) (by
      intro j
      refine refs_put (a := 0) ?_
      simp only [Proc.refs, hio, Io.refs]
      omega)
  have hp := (h.procs p).kept hk (fun i hi => refs_pos p hi) (by simp [hl])
  refine ⟨h.put hk (hc.congr (fun _ => rfl) (fun j => locked_put_same rfl) (fun j => dirty_put_same rfl)
    (fun _ => rfl) (fun _ => rfl)) hd (by rw [hl]) (by rw [hl]) (h.protocol.put hl rfl rfl) ?_ ?_
    (fun _ _ => Iff.rfl) (h.phase p) (by rw [hl]; exact h.quiet), hl⟩
  · refine ⟨hp.nodup, fun j hj _ => hp.valid j hj (by simp [hio]), by simp, hp.dirty, hp.changing, ?_⟩
    intro c hpc
    obtain ⟨hheld, hholds, hreads, hbound⟩ := hp.stage c hpc
    refine ⟨by simpa [hio, Io.fills] using hheld, hholds, ?_, hbound⟩
    intro j hj
    obtain rfl : i = j := by simpa using hj
    have hpc' : (s.proc p).pc = .committing c := hpc
    rw [hpc', Pc.mayRead, beq_iff_eq] at hread
    exact ⟨b, by rw [hl]; exact hread, hi⟩
  · exact fun q hq i hi => h.not_held hi q hq

theorem Inv.acquiresleep (h : Inv base s) (hio : (s.proc p).io = .acquiring i)
    (hrun : BufferCache.acquiresleep i s.k = .ok x k) :
    Inv base (s.put p k { s.proc p with io := .filling i, held := i :: (s.proc p).held }) := by
  have hr : 0 < s.refs i := refs_pos p (by simp [Proc.refs, hio, Io.refs])
  obtain ⟨hfree, hc, ⟨hd, -, hl⟩, hk⟩ := acquiresleep_shared h.cache hrun hr
    (L := (s.put p k { s.proc p with io := .filling i, held := i :: (s.proc p).held }).Locked)
    (fun j => locked_put_cons rfl)
  have hp := (h.procs p).kept hk (fun i hi => refs_pos p hi) (by simp [hl])
  have hnot : ∀ q, i ∉ (s.proc q).held := fun q hq => hfree ⟨q, hq⟩
  refine h.put hk (hc.congr ?_ (fun _ => Iff.rfl) (fun j => dirty_put_same rfl)
    (fun _ => rfl) (fun _ => rfl)) hd (by rw [hl]) (by rw [hl]) (h.protocol.put hl rfl rfl) ?_ ?_
    (fun _ _ => Iff.rfl) (h.phase p) (by rw [hl]; exact h.quiet)
  · intro j
    refine refs_put (a := 0) (b := 0) ?_
    simp only [Proc.refs, hio, Io.refs, List.count_cons, beq_iff_eq, eq_comm (a := i)]
    omega
  · refine ⟨List.nodup_cons.mpr ⟨hnot p, hp.nodup⟩, ?_, by simp, ?_, hp.changing, ?_⟩
    · intro j hj hf
      rcases List.mem_cons.mp hj with rfl | hj
      · exact absurd rfl hf
      · exact hp.valid j hj (by simp [hio])
    · intro j hj
      exact List.mem_cons_of_mem _ (hp.dirty j hj)
    · intro c hpc
      obtain ⟨hheld, hholds, hreads, hbound⟩ := hp.stage c hpc
      refine ⟨by simpa [hio, Io.fills] using hheld, hholds, ?_, hbound⟩
      intro j hj
      obtain rfl : i = j := by simpa using hj
      exact hreads i (.inl hio)
  · intro q hq j hj hj'
    rcases List.mem_cons.mp hj with rfl | hj
    · exact hnot q hj'
    · exact h.not_held hj q hq hj'

theorem CommitPc.bufs_got {lg : Log} (h : c.wants lg = some b) (i : Nat) :
    (c.got i).bufs lg = (i, b) :: c.bufs lg := by
  unfold CommitPc.wants at h
  split at h <;> cases h <;> rfl

theorem CommitPc.Phase.got {lg : Log} {d v : Nat → Block} {txn : List Update}
    (h : c.Phase lg d v txn) (i : Nat) : (c.got i).Phase lg d v txn := by
  unfold CommitPc.got
  split
  · rename_i inst tail
    cases inst <;> exact h
  · rename_i inst tail a
    cases inst <;> exact h
  · rename_i erase
    cases erase <;> exact h
  · exact h

theorem CommitPc.installed_got (c : CommitPc) (i j : Nat) :
    (c.got i).Installed j ↔ c.Installed j := by
  unfold CommitPc.got
  split
  · rename_i inst tail
    cases inst <;> rfl
  · rename_i inst tail a
    cases inst <;> rfl
  · rfl
  · rfl

theorem CommitPc.got_loop {inst : Bool} {st : LoopStage}
    (h : c.got i = .loop inst tail st) : ∃ st', c = .loop inst tail st' := by
  unfold CommitPc.got at h
  split at h <;> simp_all

theorem Pc.got_eq_committing {pc : Pc} (h : pc.got i = .committing c) :
    ∃ c', pc = .committing c' ∧ c'.got i = c := by
  cases pc with
  | committing c' => exact ⟨c', rfl, by simpa [Pc.got] using h⟩
  | idle | starting | inOp => simp [Pc.got] at h

theorem Inv.fill (h : Inv base s) (hio : (s.proc p).io = .filling i)
    (hrun : BufferCache.fill i s.k = .ok x k) :
    Inv base (s.put p k { s.proc p with io := .none, pc := (s.proc p).pc.got i }) ∧ k.log = s.k.log := by
  have hr : 0 < s.refs i := refs_pos p (mem_held_refs ((h.procs p).filling i hio))
  obtain ⟨hc, hv, ⟨hd, -, hl⟩, hk⟩ := fill_shared h.cache hrun hr
  have hp := (h.procs p).kept hk (fun i hi => refs_pos p hi) (by simp [hl])
  have hact : ∀ pc : Pc, (pc.got i = .inOp ↔ pc = .inOp) ∧ (pc.got i).commits = pc.commits := by
    intro pc
    cases pc <;> simp [Pc.got, Pc.commits]
  refine ⟨h.put hk (hc.congr ?_ (fun j => locked_put_same rfl) (fun j => dirty_put_same rfl)
    (fun _ => rfl) (fun _ => rfl)) hd (by rw [hl]) (by rw [hl]) (h.protocol.put hl ?_ ?_) ?_ ?_
    ?_ ?_ (by rw [hl]; exact h.quiet), hl⟩
  · intro j
    refine refs_put (a := 0) (b := 0) ?_
    simp only [Proc.refs, hio, Io.refs]
  · simp only [Proc.active, (hact _).1]
  · exact (hact _).2
  · refine ⟨hp.nodup, ?_, by simp, hp.dirty, fun hne => (hact _).1.mpr (hp.changing hne), ?_⟩
    · intro j hj _
      by_cases hji : j = i
      · exact hji ▸ hv
      · exact hp.valid j hj (by simp [hio, Ne.symm hji])
    · intro c hpc
      obtain ⟨c', hc', rfl⟩ := Pc.got_eq_committing hpc
      obtain ⟨hheld, hholds, hreads, hbound⟩ := hp.stage c' hc'
      obtain ⟨b, hw, hib⟩ := hreads i (.inr hio)
      refine ⟨?_, ?_, by simp, ?_⟩
      · rw [CommitPc.bufs_got hw]
        simpa [hio, Io.fills] using hheld
      · rw [CommitPc.bufs_got hw]
        intro y hy
        rcases List.mem_cons.mp hy with rfl | hy
        · exact hib
        · exact hholds y hy
      · intro inst tail st hst
        obtain ⟨st', hst'⟩ := CommitPc.got_loop hst
        exact hbound inst tail st' hst'
  · exact fun q hq j hj => h.not_held hj q hq
  · intro j _
    show ((s.proc p).pc.got i).Installed j ↔ _
    cases (s.proc p).pc <;> simp [Pc.got, Pc.Installed, CommitPc.installed_got]
  · intro c hpc
    obtain ⟨c', hc', rfl⟩ := Pc.got_eq_committing hpc
    exact (h.phase p c' hc').got i

theorem Inv.unlock (h : Inv base s) (hio : (s.proc p).io = .none)
    (hi : i ∈ (s.proc p).held) (hd : i ∉ (s.proc p).dirty)
    (hrun : BufferCache.releasesleep i s.k = .ok x k) (pc : Pc) (hact : pc = .inOp ↔ (s.proc p).pc = .inOp)
    (hcom : pc.commits = (s.proc p).pc.commits)
    (hinst : ∀ j : Nat, (j : Int) < s.k.log.lh.n → (pc.Installed j ↔ (s.proc p).pc.Installed j))
    (hphase : ∀ c, pc = .committing c → c.Phase s.k.log s.k.disk (s.view base) s.txn)
    (hstage : ∀ c, pc = .committing c → Kept s.refs s.k k → k.log = s.k.log →
      StageOk k { s.proc p with pc := pc, io := .releasing i, held := (s.proc p).held.erase i } c) :
    Inv base (s.put p k { s.proc p with
      pc := pc, io := .releasing i, held := (s.proc p).held.erase i }) := by
  obtain ⟨hc, ⟨hdisk, -, hl⟩, hk⟩ := releasesleep_shared h.cache hrun ⟨p, hi⟩ (h.not_dirty hi hd)
    (L := (s.put p k { s.proc p with
      pc := pc, io := .releasing i, held := (s.proc p).held.erase i }).Locked)
    (fun j => locked_put_erase rfl (h.procs p).nodup (h.not_held hi))
  have hp := (h.procs p).kept hk (fun i hi => refs_pos p hi) (by simp [hl])
  refine h.put hk (hc.congr ?_ (fun _ => Iff.rfl) (fun j => dirty_put_same rfl)
    (fun _ => rfl) (fun _ => rfl)) hdisk (by rw [hl]) (by rw [hl]) (h.protocol.put hl ?_ hcom) ?_ ?_
    hinst hphase (by rw [hl]; exact h.quiet)
  · intro j
    refine refs_put (a := 0) (b := 0) ?_
    have hpos := List.count_pos_iff.mpr hi
    simp only [Proc.refs, hio, Io.refs, List.count_erase, beq_iff_eq]
    obtain rfl | hji := eq_or_ne j i
    · simp only [↓reduceIte]
      omega
    · simp only [hji, Ne.symm hji, ↓reduceIte]
      omega
  · simp only [Proc.active, hact]
  · refine ⟨hp.nodup.erase i, ?_, by simp, ?_, fun hne => hact.mpr (hp.changing hne), ?_⟩
    · intro j hj _
      exact hp.valid j (List.mem_of_mem_erase hj) (by simp [hio])
    · intro j hj
      refine (hp.nodup.mem_erase_iff).mpr ⟨?_, hp.dirty j hj⟩
      rintro rfl
      exact hd hj
    · exact fun c hpc => hstage c hpc hk hl
  · exact fun q hq j hj => h.not_held (List.mem_of_mem_erase hj) q hq

theorem Inv.brelseRef (h : Inv base s) (hio : (s.proc p).io = .releasing i)
    (hrun : BufferCache.brelseRef i s.k = .ok x k) :
    Inv base (s.put p k { s.proc p with io := .none }) ∧ k.log = s.k.log := by
  have hr : 0 < s.refs i := refs_pos p (by simp [Proc.refs, hio, Io.refs])
  obtain ⟨hc, ⟨hd, -, hl⟩, hk⟩ := brelseRef_shared h.cache hrun hr
    (R := (s.put p k { s.proc p with io := .none }).refs) (by
      intro hlock
      obtain ⟨q, hq⟩ := (locked_put_same (s := s) (p := p) (k := k)
        (r := { s.proc p with io := .none }) rfl).mpr hlock
      exact refs_pos q (mem_held_refs hq)) (by
      intro j
      refine (refs_put (b := 0) ?_).symm
      simp only [Proc.refs, hio, Io.refs]
      omega)
  have hp := (h.procs p).kept hk (fun i hi => refs_pos p hi) (by simp [hl])
  refine ⟨h.put hk (hc.congr (fun _ => rfl) (fun j => locked_put_same rfl) (fun j => dirty_put_same rfl)
    (fun _ => rfl) (fun _ => rfl)) hd (by rw [hl]) (by rw [hl]) (h.protocol.put hl rfl rfl) ?_ ?_
    (fun _ _ => Iff.rfl) (h.phase p) (by rw [hl]; exact h.quiet), hl⟩
  · refine ⟨hp.nodup, fun j hj _ => hp.valid j hj (by simp [hio]), by simp, hp.dirty, hp.changing, ?_⟩
    intro c hpc
    obtain ⟨hheld, hholds, hreads, hbound⟩ := hp.stage c hpc
    exact ⟨by simpa [hio, Io.fills] using hheld, hholds, by simp, hbound⟩
  · exact fun q hq j hj => h.not_held hj q hq

theorem Inv.modify (h : Inv base s) {x : Block} {y : PUnit} (hio : (s.proc p).io = .none)
    (hpc : (s.proc p).pc = .inOp) (hi : i ∈ (s.proc p).held) (hrun : setData i x s.k = .ok y k) :
    Inv base (s.put p k { s.proc p with dirty := i :: (s.proc p).dirty }) := by
  obtain rfl := modify_ok.mp hrun
  obtain ⟨hc, hk⟩ := h.cache.modify ⟨p, hi⟩ ((h.procs p).valid i hi (by simp [hio])) x
    (D := (s.put p { s.k with buf := update s.k.buf i { s.k.buf i with data := x } }
      { s.proc p with dirty := i :: (s.proc p).dirty }).Dirty) (by
      intro j
      rw [dirty_put, dirty_self s p, List.mem_cons, or_assoc, or_comm]) rfl
  have hp := (h.procs p).kept hk (fun i hi => refs_pos p hi) (by simp)
  refine h.put hk (hc.congr ?_ (fun j => locked_put_same rfl) (fun _ => Iff.rfl)
    (fun _ => rfl) (fun _ => rfl)) rfl rfl rfl (h.protocol.put rfl rfl rfl) ?_ ?_
    (fun _ _ => Iff.rfl) (h.phase p) h.quiet
  · intro j
    exact refs_put (a := 0) (b := 0) rfl
  · refine ⟨hp.nodup, hp.valid, hp.filling, ?_, fun _ => hpc, ?_⟩
    · intro j hj
      rcases List.mem_cons.mp hj with rfl | hj
      · exact hi
      · exact hp.dirty j hj
    · intro c hc
      simp [hpc] at hc
  · exact fun q hq j hj => h.not_held hj q hq

theorem Inv.setLog (h : Inv base s) (lg : Log) (hdev : lg.dev = s.k.log.dev)
    (hstart : lg.start = s.k.log.start) (hlh : lg.lh = s.k.log.lh) {pr : Proc} (hio : pr.io = (s.proc p).io)
    (hheld : pr.held = (s.proc p).held) (hdirty : pr.dirty = (s.proc p).dirty)
    (hproto : Protocol (s.put p { s.k with log := lg } pr)) (hchanging : pr.dirty ≠ [] → pr.pc = .inOp)
    (hinst : ∀ j : Nat, (j : Int) < s.k.log.lh.n → (pr.pc.Installed j ↔ (s.proc p).pc.Installed j))
    (hphase : ∀ c, pr.pc = .committing c → c.Phase s.k.log s.k.disk (s.view base) s.txn)
    (hstage : ∀ c, pr.pc = .committing c → StageOk { s.k with log := lg } pr c)
    (hquiet : lg.committing = false → headN (s.k.disk s.k.log.start) = 0) :
    Inv base (s.put p { s.k with log := lg } pr) := by
  obtain ⟨hc, hk⟩ := h.cache.setLog lg hdev
  have hp := h.procs p
  refine h.put hk (hc.congr (fun j => refs_put (a := 0) (b := 0) ?_) (fun j => locked_put_same hheld)
    (fun j => dirty_put_same hdirty) (fun _ => rfl) (fun _ => rfl)) rfl hstart hlh hproto ?_ ?_ hinst
    hphase hquiet
  · simp only [Proc.refs, hio, hheld]
  · exact ⟨hheld ▸ hp.nodup, fun j hj hf => hp.valid j (hheld ▸ hj) (hio ▸ hf),
      fun j hj => hheld ▸ hp.filling j (hio ▸ hj),
      fun j hj => hheld ▸ hp.dirty j (hdirty ▸ hj), hchanging, hstage⟩
  · exact fun q hq j hj => h.not_held (hheld ▸ hj) q hq

theorem Protocol.of_committing (h : Protocol s) (hpc : (s.proc p).pc = .committing c) :
    s.k.log.committing = true ∧ s.k.log.outstanding = 0 ∧ (∀ q, (s.proc q).pc ≠ .inOp) ∧
      ∀ q c', (s.proc q).pc = .committing c' → q = p := by
  have hle := le_total Proc.commits s.proc p
  simp only [Proc.commits, hpc, Pc.commits] at hle
  have hsum := h.committing
  have hc : s.k.log.committing = true := by
    by_contra hc
    rw [if_neg hc] at hsum
    exact absurd (hsum ▸ hle) (by simp)
  have ho := h.exclusive hc
  refine ⟨hc, ho, ?_, ?_⟩
  · intro q hq
    have hz := h.outstanding
    rw [ho] at hz
    have := (total_eq_zero Proc.active s.proc).mp (by omega) q
    simp [Proc.active, hq] at this
  · intro q c' hq
    by_contra hne
    have := add_le_total Proc.commits s.proc hne
    rw [hsum, if_pos hc] at this
    simp [Proc.commits, hq, hpc, Pc.commits] at this

theorem Protocol.move (h : Protocol s) {pr : Proc}
    (ho : k.log.outstanding + (s.proc p).active = s.k.log.outstanding + pr.active)
    (hc : (if k.log.committing then 1 else 0) + (s.proc p).commits =
      (if s.k.log.committing then 1 else 0) + pr.commits)
    (hx : k.log.committing = true → k.log.outstanding = 0)
    (he : k.log.committing = false → k.log.outstanding = 0 → k.log.lh.n = 0) :
    Protocol (s.put p k pr) := by
  have h1 := total_update Proc.active s.proc p pr
  have h2 := total_update Proc.commits s.proc p pr
  have h3 := h.outstanding
  rw [← h.committing] at hc
  refine ⟨?_, ?_, hx, he⟩
  · simp only [Sys.put]
    omega
  · show total Proc.commits (update s.proc p pr) = if k.log.committing then 1 else 0
    generalize (if k.log.committing = true then 1 else 0) = x at hc ⊢
    omega

theorem applyUpdates_append (us : List Update) (u : Update) (d : Nat → Block) :
    applyUpdates (us ++ [u]) d = update (applyUpdates us d) u.block u.data := by
  simp [applyUpdates]

theorem HeaderOk.snoc {start : Nat} {lh : LogHeader} (h : HeaderOk start lh) (hn : lh.n < logBlocks)
    (hb : HomeBlock start b) (hnew : ∀ j : Nat, (j : Int) < lh.n → lh.block j ≠ b) :
    HeaderOk start ⟨lh.n + 1, update lh.block lh.n.toNat b⟩ := by
  have h0 := h.nonneg
  have hcase : ∀ j : Nat, (j : Int) < lh.n + 1 → j = lh.n.toNat ∨ ((j : Int) < lh.n ∧
      update lh.block lh.n.toNat b j = lh.block j) := by
    intro j hj
    by_cases he : j = lh.n.toNat
    · exact .inl he
    · exact .inr ⟨by omega, update_of_ne he _ _⟩
  refine ⟨by simp only; omega, by simp only; omega, ?_, ?_⟩
  · intro i j hi hj he
    simp only at hi hj he
    rcases hcase i hi with rfl | ⟨hi', hie⟩ <;> rcases hcase j hj with rfl | ⟨hj', hje⟩
    · rfl
    · rw [update_self, hje] at he
      exact absurd he.symm (hnew j hj')
    · rw [update_self, hie] at he
      exact absurd he (hnew i hi')
    · rw [hie, hje] at he
      exact h.distinct i j hi' hj' he
  · intro j hj
    rcases hcase j hj with rfl | ⟨hj', hje⟩
    · simpa using hb
    · simpa only [hje] using h.home j hj'

theorem Inv.logged (h : Inv base s) {r : Nat} (hio : (s.proc p).io = .none)
    (hpc : (s.proc p).pc = .inOp) (hi : i ∈ (s.proc p).held) (hb : (s.k.buf i).blockno = b)
    (hhome : HomeBlock s.k.log.start b) (hdev : k.log.dev = s.k.log.dev) (hstart : k.log.start = s.k.log.start)
    (hout : k.log.outstanding = s.k.log.outstanding) (hcom : k.log.committing = s.k.log.committing)
    (hdisk : k.disk = s.k.disk) (hlru : k.lru = s.k.lru)
    (hbuf : k.buf = update s.k.buf i { s.k.buf i with refcnt := r })
    (hr : (s.k.buf i).refcnt + 1 ≤ r + s.pin b) (hheader : HeaderOk s.k.log.start k.log.lh)
    (hlisted : ∀ c, (∃ j : Nat, (j : Int) < k.log.lh.n ∧ k.log.lh.block j = c) ↔
      (∃ j : Nat, (j : Int) < s.k.log.lh.n ∧ s.k.log.lh.block j = c) ∨ c = b) :
    Inv base { s.put p k { s.proc p with dirty := (s.proc p).dirty.filter (· ≠ i) } with
      txn := s.txn ++ [⟨(s.proc p).op, (s.k.buf i).blockno, (s.k.buf i).data⟩] } := by
  obtain ⟨hpos, hcf, hnone⟩ := h.protocol.of_inOp hpc
  have hnone' : ∀ q c, ((s.put p k { s.proc p with
      dirty := (s.proc p).dirty.filter (· ≠ i) }).proc q).pc ≠ .committing c := by
    intro q c
    obtain rfl | hq := eq_or_ne q p
    · simp [Sys.put, hpc]
    · simpa [Sys.put, hq] using hnone q c
  obtain ⟨hc, hk⟩ := h.cache.logged (t := k) ⟨p, hi⟩ ((h.procs p).valid i hi (by simp [hio])) hb r hr
    (pin_le_one b)
    (D := (s.put p k { s.proc p with dirty := (s.proc p).dirty.filter (· ≠ i) }).Dirty)
    (P := (s.put p k { s.proc p with dirty := (s.proc p).dirty.filter (· ≠ i) }).pin)
    (V := Sys.view base { s.put p k { s.proc p with dirty := (s.proc p).dirty.filter (· ≠ i) } with
      txn := s.txn ++ [⟨(s.proc p).op, (s.k.buf i).blockno, (s.k.buf i).data⟩] })
    (fun j => dirty_put_filter rfl
      (fun q hq hiq => h.not_held hi q hq ((h.procs q).dirty i hiq)))
    (by
      intro c
      obtain rfl | hcb := eq_or_ne c b
      · rw [update_self]
        exact pin_eq_one ((pinned_iff_listed hnone' c).mpr ((hlisted c).mpr (.inr rfl)))
      · rw [update_of_ne hcb]
        by_cases hp : s.Pinned c
        · rw [pin_eq_one hp]
          exact pin_eq_one ((pinned_iff_listed hnone' c).mpr
            ((hlisted c).mpr (.inl ((pinned_iff_listed hnone c).mp hp))))
        · rw [pin_eq_zero hp]
          refine pin_eq_zero (fun hp' => hp ((pinned_iff_listed hnone c).mpr ?_))
          exact ((hlisted c).mp ((pinned_iff_listed hnone' c).mp hp')).resolve_right hcb)
    (by
      intro c
      simp only [Sys.view, Sys.put, hstart, hdisk, applyUpdates_append, hb]
      obtain rfl | hcb := eq_or_ne c b
      · rw [if_neg hhome.1, update_self, update_self]
      · rw [update_of_ne hcb, update_of_ne hcb]
        rfl)
    hdev hdisk hlru hbuf
  refine ⟨hc.congr (fun j => refs_put (k := k) (a := 0) (b := 0) rfl)
    (fun j => locked_put_same (k := k) rfl) (fun _ => Iff.rfl) (fun _ => rfl) (fun _ => rfl),
    excl_put (k := k) h.excl (fun q hq i hi => h.not_held hi q hq), ?_, ?_, hstart ▸ hheader, ?_, ?_, ?_, ?_⟩
  · intro q
    have hq := (h.procs q).kept hk (fun i hi => refs_pos q hi) (fun c hcq => absurd hcq (hnone q c))
    obtain rfl | hqp := eq_or_ne q p
    · simp only [Sys.put, update_self]
      refine ⟨hq.nodup, hq.valid, hq.filling, ?_, fun _ => hpc, fun c hcq => absurd hcq (hnone q c)⟩
      intro j hj
      exact hq.dirty j (List.mem_of_mem_filter hj)
    · simpa only [Sys.put, update_of_ne hqp] using hq
  · have hmove : Protocol (s.put p k { s.proc p with dirty := (s.proc p).dirty.filter (· ≠ i) }) :=
      h.protocol.move (by rw [hout]; rfl) (by rw [hcom]; rfl) (by simp [hcom, hcf])
        (fun _ hz => by omega)
    exact ⟨hmove.outstanding, hmove.committing, hmove.exclusive, hmove.empty⟩
  · intro u hu
    rcases List.mem_append.mp hu with hu | hu
    · exact (hlisted u.block).mpr (.inl (h.listed u hu))
    · obtain rfl := List.mem_singleton.mp hu
      exact (hlisted _).mpr (.inr hb)
  · simp only [Sys.put, hstart, hdisk]
    exact h.durable
  · intro q c hq
    exact absurd hq (hnone' q c)
  · simp only [Sys.put, hstart, hdisk, hcom]
    exact h.quiet

theorem Inv.logWrite (h : Inv base s) (hio : (s.proc p).io = .none)
    (hpc : (s.proc p).pc = .inOp) (hi : i ∈ (s.proc p).held)
    (hhome : HomeBlock s.k.log.start (s.k.buf i).blockno) (hrun : LogOps.logWrite i s.k = .ok x k) :
    Inv base { s.put p k { s.proc p with dirty := (s.proc p).dirty.filter (· ≠ i) } with
      txn := s.txn ++ [⟨(s.proc p).op, (s.k.buf i).blockno, (s.k.buf i).data⟩] } := by
  obtain ⟨-, -, hnone⟩ := h.protocol.of_inOp hpc
  have h0 := h.header.nonneg
  obtain ⟨hn, -, ⟨hex, rfl⟩ | ⟨hnew, rfl⟩⟩ := LogOps.logWrite_ok hrun h0
  · refine h.logged (r := (s.k.buf i).refcnt) hio hpc hi rfl hhome rfl rfl rfl rfl rfl rfl ?_ ?_ h.header ?_
    · exact (update_eq_self i s.k.buf).symm
    · rw [pin_eq_one ((pinned_iff_listed hnone _).mpr hex)]
    · intro c
      constructor
      · exact .inl
      · rintro (hc | rfl)
        · exact hc
        · exact hex
  · refine h.logged (r := (s.k.buf i).refcnt + 1) hio hpc hi rfl hhome rfl rfl rfl rfl rfl rfl rfl ?_
      (h.header.snoc hn hhome hnew) ?_
    · exact Nat.le_add_right _ _
    · intro c
      simp only
      constructor
      · rintro ⟨j, hj, rfl⟩
        by_cases he : j = s.k.log.lh.n.toNat
        · subst he
          exact .inr (update_self _ _ _)
        · rw [update_of_ne he]
          exact .inl ⟨j, by omega, rfl⟩
      · rintro (⟨j, hj, rfl⟩ | rfl)
        · exact ⟨j, by omega, update_of_ne (by omega) _ _⟩
        · exact ⟨s.k.log.lh.n.toNat, by omega, update_self _ _ _⟩

theorem Inv.waitOp (h : Inv base s) (hpc : (s.proc p).pc = .idle ∨ (s.proc p).pc = .starting) :
    Inv base (s.put p s.k { s.proc p with pc := .starting }) := by
  have hne : (s.proc p).pc ≠ .inOp := by rcases hpc with hpc | hpc <;> simp [hpc]
  refine h.setLog s.k.log rfl rfl rfl rfl rfl rfl (h.protocol.put rfl ?_ ?_)
    (fun hd => absurd (h.dirty_eq_nil hne) hd) ?_ (by simp) (by simp) h.quiet
  · simp [Proc.active, hne]
  · rcases hpc with hpc | hpc <;> simp [Proc.commits, hpc, Pc.commits]
  · intro j _
    rcases hpc with hpc | hpc <;> simp [hpc, Pc.Installed]

theorem Inv.admitOp (h : Inv base s) (hpc : (s.proc p).pc = .idle ∨ (s.proc p).pc = .starting)
    (hcom : s.k.log.committing = false) (op : Nat) :
    Inv base (s.put p { s.k with log := { s.k.log with outstanding := s.k.log.outstanding + 1 } }
      { s.proc p with pc := .inOp, op := op }) := by
  have hne : (s.proc p).pc ≠ .inOp := by rcases hpc with hpc | hpc <;> simp [hpc]
  have hout := h.protocol.outstanding
  refine h.setLog { s.k.log with outstanding := s.k.log.outstanding + 1 } rfl rfl rfl rfl rfl rfl
    (h.protocol.move ?_ ?_ ?_ ?_) (fun _ => rfl) ?_ (by simp) (by simp) h.quiet
  · simp [Proc.active, hne]
  · rcases hpc with hpc | hpc <;> simp [Proc.commits, hpc, Pc.commits]
  · intro hcom'
    simp [hcom] at hcom'
  · intro _ hz
    have hz : s.k.log.outstanding + 1 = 0 := hz
    omega
  · intro j _
    rcases hpc with hpc | hpc <;> simp [hpc, Pc.Installed]

theorem Inv.leaveOp (h : Inv base s) (hpc : (s.proc p).pc = .inOp) (hheld : (s.proc p).held = [])
    (hne : s.k.log.outstanding - 1 ≠ 0) :
    Inv base (s.put p { s.k with log := { s.k.log with outstanding := s.k.log.outstanding - 1 } }
      { s.proc p with pc := .idle }) := by
  obtain ⟨-, hcom, -⟩ := h.protocol.of_inOp hpc
  refine h.setLog { s.k.log with outstanding := s.k.log.outstanding - 1 } rfl rfl rfl rfl rfl rfl
    (h.protocol.move ?_ ?_ ?_ ?_) ?_ ?_ (by simp) (by simp) h.quiet
  · simp [Proc.active, hpc]
  · simp [Proc.commits, hpc, Pc.commits]
  · intro hcom'
    simp [hcom] at hcom'
  · exact fun _ hz => absurd hz hne
  · intro hd
    obtain ⟨j, hj⟩ := List.exists_mem_of_ne_nil _ hd
    have := (h.procs p).dirty j hj
    simp [hheld] at this
  · intro j _
    simp [hpc, Pc.Installed]

theorem enterCommit_bufs (lg : Log) (n : Int) : (enterCommit n).bufs lg = [] := by
  unfold enterCommit enterLoop
  split_ifs <;> rfl

theorem enterCommit_installed (n : Int) (j : Nat) : ¬ (enterCommit n).Installed j := by
  unfold enterCommit
  split_ifs with hn
  · rw [enterLoop, if_pos (by simpa using hn)]
    simp [CommitPc.Installed]
  · simp [CommitPc.Installed]

theorem enterCommit_bound {n : Int} {inst : Bool} {st : LoopStage}
    (h : enterCommit n = .loop inst tail st) : (tail : Int) < n := by
  unfold enterCommit enterLoop at h
  split_ifs at h
  cases h
  assumption

theorem Inv.lastOp (h : Inv base s) (hio : (s.proc p).io = .none) (hpc : (s.proc p).pc = .inOp)
    (hheld : (s.proc p).held = []) (heq : s.k.log.outstanding - 1 = 0) :
    Inv base (s.put p { s.k with log := { s.k.log with
        outstanding := s.k.log.outstanding - 1, committing := true } }
      { s.proc p with pc := .committing (enterCommit s.k.log.lh.n) }) := by
  obtain ⟨-, hcom, -⟩ := h.protocol.of_inOp hpc
  refine h.setLog { s.k.log with outstanding := s.k.log.outstanding - 1, committing := true }
    rfl rfl rfl rfl rfl rfl (h.protocol.move ?_ ?_ (fun _ => heq) (by simp)) ?_ ?_ ?_ ?_ (by simp)
  · simp [Proc.active, hpc]
  · simp [Proc.commits, hpc, hcom, Pc.commits]
  · intro hd
    obtain ⟨j, hj⟩ := List.exists_mem_of_ne_nil _ hd
    have := (h.procs p).dirty j hj
    simp [hheld] at this
  · intro j _
    simp [hpc, Pc.Installed, enterCommit_installed]
  · intro c hc
    obtain rfl : enterCommit s.k.log.lh.n = c := by simpa using hc
    exact h.enterCommit_phase hcom
  · intro c hc
    obtain rfl : enterCommit s.k.log.lh.n = c := by simpa using hc
    refine ⟨?_, ?_, by simp [hio], fun _ _ _ => enterCommit_bound⟩
    · simp [enterCommit_bufs, hheld, hio, Io.fills]
    · simp [enterCommit_bufs]

theorem Inv.endCommit (h : Inv base s) (hpc : (s.proc p).pc = .committing .finished)
    (hrun : LogOps.endCommit s.k = .ok x k) : Inv base (s.put p k { s.proc p with pc := .idle }) := by
  obtain rfl := modify_ok.mp hrun
  obtain ⟨hcom, hout, -, -⟩ := h.protocol.of_committing hpc
  obtain ⟨-, hn, hhead⟩ := h.phase p _ hpc
  refine h.setLog { s.k.log with committing := false } rfl rfl rfl rfl rfl rfl
    (h.protocol.move ?_ ?_ (by simp) (fun _ _ => hn))
    (fun hd => absurd (h.dirty_eq_nil (by simp [hpc])) hd)
    (fun j _ => by simp [hpc, Pc.Installed, CommitPc.Installed]) (by simp) (by simp) (fun _ => hhead)
  · simp [Proc.active, hpc]
  · simp [Proc.commits, hpc, hcom, Pc.commits]

end Xv6.LogSystem
