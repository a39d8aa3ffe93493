import Xv6.VirtioInvariant

namespace Xv6.Virtio

open Xv6.Lib Function

variable {ι β : Type}

section Descriptors

variable {d : Disk β}

theorem allocDesc_cases (d : Disk β) (f : Nat → Bool) :
    allocDesc { d with free := f } = none ∨ ∃ i, i < num ∧ f i = true ∧
      allocDesc { d with free := f } = some (i, { d with free := update f i false }) := by
  unfold allocDesc
  cases hf : (List.range num).find? f with
  | none => exact .inl rfl
  | some i =>
    exact .inr ⟨i, List.mem_range.mp (List.mem_of_find?_eq_some hf), List.find?_some hf, rfl⟩

theorem freeDesc_ok {f : Nat → Bool} {g : Nat → Desc β} {i : Nat} (hi : i < num) (hf : f i = false) :
    freeDesc i { d with free := f, desc := g } = .ok { d with
      free := update f i true
      desc := update g i ⟨.null, 0, 0, 0⟩ } := by
  rw [freeDesc, if_neg (by omega), if_neg (by simp [hf])]

theorem free_ne {f : Nat → Bool} {i j : Nat} (hi : f i = true) (hj : f j = false) : j ≠ i := by
  rintro rfl
  exact absurd (hj.symm.trans hi) Bool.false_ne_true

theorem alloc3Desc_cases (d : Disk β) :
    (∃ desc, alloc3Desc d = .ok (none, { d with desc := desc }) ∧
      ∀ j, d.free j = false → desc j = d.desc j) ∨
    ∃ i : Idx, (i.i0 < num ∧ d.free i.i0 = true) ∧ (i.i1 < num ∧ d.free i.i1 = true ∧ i.i1 ≠ i.i0) ∧
      (i.i2 < num ∧ d.free i.i2 = true ∧ i.i2 ≠ i.i0 ∧ i.i2 ≠ i.i1) ∧
      alloc3Desc d = .ok (some i, { d with free := update (update
        (update d.free i.i0 false) i.i1 false) i.i2 false }) := by
  obtain h0 | ⟨i0, hlt0, hf0, h0⟩ := allocDesc_cases d d.free
  · exact .inl ⟨d.desc, by simp only [alloc3Desc, h0], fun _ _ => rfl⟩
  have hin0 : update d.free i0 false i0 = false := update_self ..
  obtain h1 | ⟨i1, hlt1, hf1, h1⟩ := allocDesc_cases d (update d.free i0 false)
  · refine .inl ⟨update d.desc i0 ⟨.null, 0, 0, 0⟩, ?_, ?_⟩
    · simp only [alloc3Desc, h0, h1, freeDesc_ok hlt0 hin0, bind, Except.bind, update_idem, ← hf0,
        update_eq_self]
      rfl
    · intro j hj
      rw [update_of_ne (free_ne hf0 hj)]
  have hne1 : i1 ≠ i0 := (free_ne hf1 hin0).symm
  have hf1' : d.free i1 = true := by rwa [update_of_ne hne1] at hf1
  obtain h2 | ⟨i2, hlt2, hf2, h2⟩ :=
    allocDesc_cases d (update (update d.free i0 false) i1 false)
  · refine .inl ⟨update (update d.desc i0 ⟨.null, 0, 0, 0⟩) i1 ⟨.null, 0, 0, 0⟩, ?_, ?_⟩
    · have hfree0 : update (update d.free i0 false) i1 false i0 = false := by
        rw [update_of_ne (Ne.symm hne1), hin0]
      have hfree1 : update (update (update d.free i0 false) i1 false)
          i0 true i1 = false := by
        rw [update_of_ne hne1, update_self]
      have hback : update (update (update (update d.free i0 false)
          i1 false) i0 true) i1 true = d.free := by
        rw [update_comm (Ne.symm hne1), update_idem, update_comm hne1,
          update_idem, ← hf0, update_eq_self, hf0, ← hf1', update_eq_self]
      simp only [alloc3Desc, h0, h1, h2, freeDesc_ok hlt0 hfree0, bind, Except.bind,
        freeDesc_ok hlt1 hfree1, hback]
      rfl
    · intro j hj
      rw [update_of_ne (free_ne hf1' hj), update_of_ne (free_ne hf0 hj)]
  have hne2 : i2 ≠ i1 := (free_ne hf2 (update_self ..)).symm
  have hne2' : i2 ≠ i0 := by
    refine (free_ne hf2 ?_).symm
    rw [update_of_ne (Ne.symm hne1), hin0]
  refine .inr ⟨⟨i0, i1, i2⟩, ⟨hlt0, hf0⟩, ⟨hlt1, hf1', hne1⟩, ⟨hlt2, ?_, hne2', hne2⟩, ?_⟩
  · rwa [update_of_ne hne2, update_of_ne hne2'] at hf2
  · simp only [alloc3Desc, h0, h1, h2]

end Descriptors

variable [DecidableEq ι] [DecidableEq β] {s t : Sys ι β} {availQ availQ' usedQ usedQ' : List Nat} {p : ι}
  {b : β} {write : Bool} {i : Idx} {c : Pc β} {d j : Nat}

/-- What a step of process `p` to `c` leaves alone. -/
structure Local (s t : Sys ι β) (p : ι) (c : Pc β) : Prop where
  pc : t.pc = update s.pc p c
  fine : t.panicked = none
  before : s.lock = none ∨ s.lock = some (.proc p)
  after : c.locked = true → t.lock = some (.proc p)
  buf : ∀ b, c.buf = some b → (s.pc p).buf = some b ∨ ∀ q, (s.pc q).buf ≠ some b
  usedRing : t.disk.usedRing = s.disk.usedRing
  usedIdx : t.disk.usedIdx = s.disk.usedIdx
  usedRingIdx : t.disk.usedRingIdx = s.disk.usedRingIdx
  dev : t.dev = s.dev
  blockno : t.blockno = s.blockno
  desc : ∀ d, s.disk.free d = false → (∀ k, (s.pc p).owns k ≠ some d) →
    t.disk.desc d = s.disk.desc d ∧ t.disk.ops d = s.disk.ops d ∧ t.disk.info d = s.disk.info d
  busy : ∀ b, c.buf ≠ some b → (s.pc p).buf ≠ some b → t.busy b = s.busy b
  stages : ∀ b, (s.pc p).buf ≠ some b → stage b t.events = stage b s.events
  quiet : ∀ b, (s.pc p).buf = some b → c.buf ≠ some b → stage b t.events = some .idle

section

variable (h : Inv s availQ usedQ)
include h

theorem Inv.local (hloc : Local s t p c)
    (howned : Owned (fun d => num ≤ d) (fun d => t.disk.free d = false) t.ptr)
    (havail : RingHolds (2 ^ 16) num t.disk.availRing t.dev.idx t.disk.availIdx availQ')
    (hnodup : (t.asked availQ' ++ t.answered usedQ).Nodup)
    (hmem : ∀ q, q ≠ p → ∀ d, (s.pc q).head = some d → (d ∈ t.asked availQ' ↔ d ∈ s.asked availQ))
    (hheads : ∀ d ∈ t.asked availQ' ++ t.answered usedQ,
      c.head = some d ∨ ∃ q, q ≠ p ∧ (s.pc q).head = some d)
    (hdoing : Doing t (t.asked availQ') (t.answered usedQ) c) : Inv t availQ' usedQ := by
  obtain ⟨hself, hother⟩ := eq_update_iff.mp hloc.pc
  have hbuf : ∀ q b, q ≠ p → (s.pc q).buf = some b → c.buf ≠ some b ∧ (s.pc p).buf ≠ some b := by
    intro q b hq hb
    have hne : (s.pc p).buf ≠ some b := fun hp => hq (h.buffers q p b hb hp)
    refine ⟨fun hc => ?_, hne⟩
    obtain hp | hfresh := hloc.buf b hc
    · exact hne hp
    · exact hfresh q hb
  constructor
  · exact hloc.fine
  · intro q hq
    obtain rfl | hqp := eq_or_ne q p
    · exact hloc.after (hself ▸ hq)
    · rw [hother q hqp, h.alone hloc.before hqp] at hq
      cases hq
  · intro q q' b hq hq'
    by_cases hqp : q = p <;> by_cases hqp' : q' = p
    · exact hqp.trans hqp'.symm
    · subst hqp
      exact absurd (hself ▸ hq) (hbuf q' b hqp' (hother q' hqp' ▸ hq')).1
    · subst hqp'
      exact absurd (hself ▸ hq') (hbuf q b hqp (hother q hqp ▸ hq)).1
    · exact h.buffers q q' b (hother q hqp ▸ hq) (hother q' hqp' ▸ hq')
  · exact howned
  · exact havail
  · rw [hloc.usedRing, hloc.usedIdx, hloc.usedRingIdx]
    exact h.used
  · rw [hloc.usedRing, hloc.usedRingIdx, hloc.dev]
    exact h.ringed
  · exact hnodup
  · intro d hd
    obtain hc | ⟨q, hqp, hq⟩ := hheads d hd
    · exact ⟨p, hself ▸ hc⟩
    · exact ⟨q, (hother q hqp).symm ▸ hq⟩
  · intro q
    obtain rfl | hqp := eq_or_ne q p
    · exact hself ▸ hdoing
    · rw [hother q hqp]
      refine (h.doing q).congr ?_ ?_ hloc.blockno ?_ ?_
      · intro k d hk
        refine hloc.desc d (h.owned.used_of_ptr (i := (q, k)) hk) (fun k' hk' => hqp ?_)
        exact (h.owner hk hk').1
      · intro b hb
        obtain ⟨hc, hp⟩ := hbuf q b hqp hb
        exact ⟨hloc.busy b hc hp, hloc.stages b hp⟩
      · intro d hd
        refine ⟨hmem q hqp d hd, ?_⟩
        rw [Sys.answered, hloc.dev]
        rfl
      · intro hl
        rw [h.alone hloc.before hqp] at hl
        cases hl
  · intro b hb
    by_cases hp : (s.pc p).buf = some b
    · exact hloc.quiet b hp (hself ▸ hb p)
    · rw [hloc.stages b hp]
      refine h.quiet b (fun q hq => ?_)
      by_cases hqp : q = p
      · exact hp (hqp ▸ hq)
      · exact hb q ((hother q hqp).symm ▸ hq)

theorem Inv.local_same (hloc : Local s t p c)
    (howned : Owned (fun d => num ≤ d) (fun d => t.disk.free d = false) t.ptr)
    (havail : RingHolds (2 ^ 16) num t.disk.availRing s.dev.idx t.disk.availIdx availQ)
    (hhead : ∀ d, (s.pc p).head = some d → d ∈ s.asked availQ ++ s.answered usedQ → c.head = some d)
    (hdoing : Doing t (s.asked availQ) (s.answered usedQ) c) : Inv t availQ usedQ := by
  have hA : t.asked availQ = s.asked availQ := by rw [Sys.asked, hloc.dev, Sys.asked]
  have hC : t.answered usedQ = s.answered usedQ := by rw [Sys.answered, hloc.dev, Sys.answered]
  refine h.local hloc howned (hloc.dev ▸ havail) ?_ ?_ ?_ ?_
  · rw [hA, hC]
    exact h.nodup
  · intro q _ d _
    rw [hA]
  · intro d hd
    rw [hA, hC] at hd
    obtain ⟨q, hq⟩ := h.heads d hd
    obtain rfl | hqp := eq_or_ne q p
    · exact .inl (hhead d hq hd)
    · exact .inr ⟨q, hqp, hq⟩
  · rw [hA, hC]
    exact hdoing

theorem Inv.owned_same (hpc : t.pc = update s.pc p c)
    (hfree : t.disk.free = s.disk.free) (howns : c.owns = (s.pc p).owns) :
    Owned (fun d => num ≤ d) (fun d => t.disk.free d = false) t.ptr := by
  have hptr : t.ptr = s.ptr := by
    funext x
    rw [Sys.ptr, Sys.ptr, hpc]
    by_cases hx : x.1 = p
    · rw [hx, update_self, howns]
    · rw [update_of_ne hx]
  rw [hptr, hfree]
  exact h.owned

theorem Inv.move {l : Option (Owner ι)}
    (hbefore : s.lock = none ∨ s.lock = some (.proc p)) (hafter : c.locked = true → l = some (.proc p))
    (hbuf : ∀ b, c.buf = some b → (s.pc p).buf = some b ∨ ∀ q, (s.pc q).buf ≠ some b)
    (hquiet : ∀ b, (s.pc p).buf = some b → c.buf = some b) (howns : c.owns = (s.pc p).owns)
    (hhead : ∀ d, (s.pc p).head = some d → c.head = some d)
    (hdoing : Doing s (s.asked availQ) (s.answered usedQ) c) :
    Inv { s with pc := update s.pc p c, lock := l } availQ usedQ := by
  have hloc : Local s { s with pc := update s.pc p c, lock := l } p c :=
    ⟨rfl, h.fine, hbefore, hafter, hbuf, rfl, rfl, rfl, rfl, rfl, fun _ _ _ => ⟨rfl, rfl, rfl⟩,
      fun _ _ _ => rfl, fun _ _ => rfl, fun b hp hc => absurd (hquiet b hp) hc⟩
  refine h.local_same hloc (h.owned_same rfl rfl howns) h.avail (fun d hd _ => hhead d hd) ?_
  exact hdoing.congr (fun _ _ _ => ⟨rfl, rfl, rfl⟩) (fun _ _ => ⟨rfl, rfl⟩) rfl
    (fun _ _ => ⟨Iff.rfl, Iff.rfl⟩) (fun _ => ⟨rfl, rfl⟩)

theorem Inv.call (hpc : s.pc p = .idle) (hl : s.lock = none) (hb : ∀ q, (s.pc q).buf ≠ some b) :
    Inv { s with pc := update s.pc p (.allocating b write), lock := some (.proc p) }
      availQ usedQ := by
  refine h.move (.inl hl) (fun _ => rfl) ?_ ?_ ?_ ?_ (h.quiet b hb)
  · rintro c ⟨⟩
    exact .inr hb
  · rw [hpc]
    rintro c ⟨⟩
  · rw [hpc]
    rfl
  · rw [hpc]
    rintro d ⟨⟩

theorem Inv.retry (hpc : s.pc p = .wantDesc b write) (hl : s.lock = none) :
    Inv { s with pc := update s.pc p (.allocating b write), lock := some (.proc p) }
      availQ usedQ := by
  have hdo := h.doing p
  rw [hpc] at hdo
  refine h.move (.inl hl) (fun _ => rfl) ?_ ?_ ?_ ?_ hdo
  · intro c hc
    exact .inl (hpc ▸ hc)
  · intro c hc
    rwa [hpc] at hc
  · rw [hpc]
    rfl
  · rw [hpc]
    rintro d ⟨⟩

theorem Inv.goToSleep (hpc : s.pc p = .waiting b write i) :
    Inv { s with pc := update s.pc p (.sleeping b write i), lock := none } availQ usedQ := by
  have hdo := h.doing p
  have hl := h.locked p (by rw [hpc]; rfl)
  rw [hpc] at hdo
  refine h.move (.inr hl) (fun hc => by cases hc) ?_ ?_ ?_ ?_ hdo
  · intro c hc
    exact .inl (hpc ▸ hc)
  · intro c hc
    rwa [hpc] at hc
  · rw [hpc]
    rfl
  · intro d hd
    rwa [hpc] at hd

theorem Inv.wake (hpc : s.pc p = .sleeping b write i) (hl : s.lock = none) :
    Inv { s with pc := update s.pc p (.waiting b write i), lock := some (.proc p) }
      availQ usedQ := by
  have hdo := h.doing p
  rw [hpc] at hdo
  refine h.move (.inl hl) (fun _ => rfl) ?_ ?_ ?_ ?_ hdo
  · intro c hc
    exact .inl (hpc ▸ hc)
  · intro c hc
    rwa [hpc] at hc
  · rw [hpc]
    rfl
  · intro d hd
    rwa [hpc] at hd

theorem Inv.inside (hlock : (s.pc p).locked = true) (hb : (s.pc p).buf = some b)
    (hcb : c.buf = some b) (hpc : t.pc = update s.pc p c) (hfine : t.panicked = s.panicked)
    (hafter : c.locked = true → t.lock = s.lock) (hring : t.disk.usedRing = s.disk.usedRing)
    (hidx : t.disk.usedIdx = s.disk.usedIdx ∧ t.disk.usedRingIdx = s.disk.usedRingIdx)
    (hdev : t.dev = s.dev ∧ t.blockno = s.blockno)
    (hdesc : ∀ d, s.disk.free d = false → (∀ k, (s.pc p).owns k ≠ some d) →
      t.disk.desc d = s.disk.desc d ∧ t.disk.ops d = s.disk.ops d ∧ t.disk.info d = s.disk.info d)
    (hother : ∀ b', b ≠ b' → t.busy b' = s.busy b' ∧ stage b' t.events = stage b' s.events) :
    Local s t p c := by
  have hl := h.locked p hlock
  have hne : ∀ b', (s.pc p).buf ≠ some b' → b ≠ b' := fun b' hb' he => hb' (he ▸ hb)
  exact ⟨hpc, hfine.trans h.fine, .inr hl, fun hc => (hafter hc).trans hl,
    fun b' hb' => .inl (hb.trans (hcb.symm.trans hb')), hring, hidx.1, hidx.2, hdev.1, hdev.2, hdesc,
    fun b' _ hb' => (hother b' (hne b' hb')).1, fun b' hb' => (hother b' (hne b' hb')).2,
    fun b' hb' hc => absurd (hcb.trans (hb.symm.trans hb')) hc⟩

theorem Inv.allocFail {desc : Nat → Desc β} (hpc : s.pc p = .allocating b write)
    (hdesc : ∀ j, s.disk.free j = false → desc j = s.disk.desc j) :
    Inv { s with
      disk := { s.disk with desc := desc }
      pc := update s.pc p (.wantDesc b write)
      lock := none } availQ usedQ := by
  have hdo := h.doing p
  rw [hpc] at hdo
  refine h.local_same (p := p) (c := .wantDesc b write) ?_ (h.owned_same rfl rfl (by rw [hpc]; rfl))
    h.avail ?_ hdo
  · refine h.inside (b := b) (by rw [hpc]; rfl) (by rw [hpc]; rfl) rfl rfl rfl (fun hc => by cases hc) rfl
      ⟨rfl, rfl⟩ ⟨rfl, rfl⟩ ?_ (fun _ _ => ⟨rfl, rfl⟩)
    intro d hd _
    exact ⟨hdesc d hd, rfl, rfl⟩
  · rw [hpc]
    rintro d ⟨⟩

end

theorem update_false_iff {f : Nat → Bool} :
    update f j false d = false ↔ d = j ∨ f d = false := by
  by_cases hd : d = j
  · simp [hd]
  · simp [hd]

theorem Inv.alloc (h : Inv s availQ usedQ) (hpc : s.pc p = .allocating b write)
    (h0 : i.i0 < num ∧ s.disk.free i.i0 = true) (h1 : i.i1 < num ∧ s.disk.free i.i1 = true ∧ i.i1 ≠ i.i0)
    (h2 : i.i2 < num ∧ s.disk.free i.i2 = true ∧ i.i2 ≠ i.i0 ∧ i.i2 ≠ i.i1) :
    Inv { s with
      disk := { s.disk with free := update (update
        (update s.disk.free i.i0 false) i.i1 false) i.i2 false }
      pc := update s.pc p (.formatting b write i) } availQ usedQ := by
  have hdo := h.doing p
  rw [hpc] at hdo
  have hnone : ∀ k, s.ptr (p, k) = none := fun k => by rw [Sys.ptr, hpc]; rfl
  have hfree : ∀ {f : Nat → Bool} {j : Nat}, f j = true → ¬ f j = false := fun hf => by rw [hf]; simp
  have hown0 := h.owned.fill (hnone 0) (hfree h0.2) (fun _ => update_false_iff)
  have hown1 := hown0.fill (i := (p, 1)) (b := i.i1) (by rw [update_of_ne (by simp)]; exact hnone 1)
    (hfree (by rw [update_of_ne h1.2.2]; exact h1.2.1)) (fun _ => update_false_iff)
  have hown2 := hown1.fill (i := (p, 2)) (b := i.i2)
    (by rw [update_of_ne (by simp), update_of_ne (by simp)]; exact hnone 2)
    (hfree (by rw [update_of_ne h2.2.2.2, update_of_ne h2.2.2.1]; exact h2.2.1))
    (fun _ => update_false_iff)
  refine h.local_same (p := p) (c := .formatting b write i) ?_ ?_ h.avail ?_ hdo
  · exact h.inside (b := b) (by rw [hpc]; rfl) (by rw [hpc]; rfl) rfl rfl rfl (fun _ => rfl) rfl
      ⟨rfl, rfl⟩ ⟨rfl, rfl⟩ (fun _ _ _ => ⟨rfl, rfl, rfl⟩) (fun _ _ => ⟨rfl, rfl⟩)
  · convert hown2 using 1
    funext x
    obtain ⟨q, k⟩ := x
    obtain rfl | hq := eq_or_ne q p
    · match k with
      | 0 => simp [Sys.ptr, Pc.owns, Idx.entry]
      | 1 => simp [Sys.ptr, Pc.owns, Idx.entry]
      | 2 => simp [Sys.ptr, Pc.owns, Idx.entry]
    · simp [Sys.ptr, hq]
  · rw [hpc]
    rintro d ⟨⟩

theorem Inv.format (h : Inv s availQ usedQ) (hpc : s.pc p = .formatting b write i) :
    Inv { s with
      disk := Virtio.format b write (s.blockno b) i s.disk
      busy := update s.busy b true
      pc := update s.pc p (.ringing b write i) } availQ usedQ := by
  have hdo := h.doing p
  rw [hpc] at hdo
  have howns : ∀ k, (s.pc p).owns k = some (i.entry k) := fun k => by rw [hpc]; rfl
  obtain ⟨hne10, hne20, hne21⟩ := h.entry_ne howns
  refine h.local_same (p := p) (c := .ringing b write i) ?_ (h.owned_same rfl rfl (by rw [hpc]; rfl))
    h.avail ?_ ?_
  · refine h.inside (b := b) (by rw [hpc]; rfl) (by rw [hpc]; rfl) rfl rfl rfl (fun _ => rfl) rfl
      ⟨rfl, rfl⟩ ⟨rfl, rfl⟩ ?_ ?_
    · intro d _ hd
      have hd0 : d ≠ i.i0 := fun he => hd 0 (he ▸ howns 0)
      have hd1 : d ≠ i.i1 := fun he => hd 1 (he ▸ howns 1)
      have hd2 : d ≠ i.i2 := fun he => hd 2 (he ▸ howns 2)
      simp [Virtio.format, hd0, hd1, hd2]
    · intro b' hb'
      exact ⟨update_of_ne (Ne.symm hb') .., rfl⟩
  · rw [hpc]
    rintro d ⟨⟩
  · refine ⟨⟨?_, ?_, ?_, ?_, ?_⟩, update_self .., hdo⟩
    · simp [Virtio.format, Ne.symm hne10, Ne.symm hne20]
    · simp [Virtio.format, Ne.symm hne21]
    · simp [Virtio.format]
    · simp [Virtio.format]
    · simp [Virtio.format]

theorem Inv.ring (h : Inv s availQ usedQ) (hpc : s.pc p = .ringing b write i) :
    Inv { s with
      disk := { s.disk with
        availRing := update s.disk.availRing (s.disk.availIdx % num) i.i0 }
      pc := update s.pc p (.counting b write i) } availQ usedQ := by
  have hdo := h.doing p
  rw [hpc] at hdo
  have hroom : availQ.length < num := h.room_avail (i := i) (by rw [hpc]; rfl) (by rw [hpc]; rfl)
  refine h.local_same (p := p) (c := .counting b write i) ?_ (h.owned_same rfl rfl (by rw [hpc]; rfl))
    (h.avail.write (by decide) hroom) ?_ ?_
  · exact h.inside (b := b) (by rw [hpc]; rfl) (by rw [hpc]; rfl) rfl rfl rfl (fun _ => rfl) rfl
      ⟨rfl, rfl⟩ ⟨rfl, rfl⟩ (fun _ _ _ => ⟨rfl, rfl, rfl⟩) (fun _ _ => ⟨rfl, rfl⟩)
  · rw [hpc]
    rintro d ⟨⟩
  · obtain ⟨hf, hbusy, hst⟩ := hdo
    exact ⟨⟨hf.desc0, hf.desc1, hf.desc2, hf.op, hf.info⟩, hbusy, hst, update_self ..⟩

theorem Inv.count (h : Inv s availQ usedQ) (hpc : s.pc p = .counting b write i) :
    Inv { s with
      disk := { s.disk with availIdx := (s.disk.availIdx + 1) % 2 ^ 16 }
      pc := update s.pc p (.waiting b write i)
      events := .requested b write (sector (s.blockno b)) :: s.events } (availQ ++ [i.i0]) usedQ := by
  have hdo := h.doing p
  rw [hpc] at hdo
  obtain ⟨hf, hbusy, hst, hslot⟩ := hdo
  have ho : (s.pc p).owns 0 = some i.i0 := by rw [hpc]; rfl
  have hh : (s.pc p).head = none := by rw [hpc]; rfl
  have hfresh := h.fresh_head ho hh
  have hroom := h.room_avail ho hh
  have hperm : ((availQ ++ [i.i0] ++ s.dev.taken) ++ s.answered usedQ).Perm
      (i.i0 :: (s.asked availQ ++ s.answered usedQ)) := by
    simp only [Sys.asked, List.append_assoc, List.singleton_append]
    exact List.perm_middle
  refine h.local (p := p) (c := .waiting b write i) ?_ (h.owned_same rfl rfl (by rw [hpc]; rfl))
    (h.avail.advance hroom hslot) ?_ ?_ ?_ ?_
  · refine h.inside (b := b) (by rw [hpc]; rfl) (by rw [hpc]; rfl) rfl rfl rfl (fun _ => rfl) rfl
      ⟨rfl, rfl⟩ ⟨rfl, rfl⟩ (fun _ _ _ => ⟨rfl, rfl, rfl⟩) ?_
    intro b' hb'
    exact ⟨rfl, stage_other hb'⟩
  · exact hperm.nodup_iff.mpr (List.nodup_cons.mpr ⟨hfresh, h.nodup⟩)
  · intro q hq d hd
    have hne : d ≠ i.i0 := by
      rintro rfl
      exact hq (h.owner (Pc.head_owns hd) ho).1
    simp [Sys.asked, hne]
  · intro d hd
    obtain rfl | hd := List.mem_cons.mp (hperm.mem_iff.mp hd)
    · exact .inl rfl
    · obtain ⟨q, hq⟩ := h.heads d hd
      refine .inr ⟨q, ?_, hq⟩
      rintro rfl
      rw [hh] at hq
      cases hq
  · refine ⟨⟨hf.desc0, hf.desc1, hf.desc2, hf.op, hf.info⟩, ?_⟩
    refine .asked (by simp [Sys.asked]) ?_ hbusy (stage_requested hst)
    exact fun hC => hfresh (List.mem_append_right _ hC)

theorem update_true_iff {f : Nat → Bool} :
    update f j true d = false ↔ d ≠ j ∧ f d = false := by
  by_cases hd : d = j
  · simp [hd]
  · simp [hd]

omit [DecidableEq β] in
theorem Freeing.owns {d : Disk β} (h : Freeing d i j) : ∃ k, (Pc.freeing b i j).owns k = some j := by
  cases h with
  | first => exact ⟨0, by simp [Pc.owns, Idx.entry]⟩
  | second => exact ⟨1, by simp [Pc.owns, Idx.entry]⟩
  | third => exact ⟨2, by simp [Pc.owns, Idx.entry]⟩

theorem Inv.finish (h : Inv s availQ usedQ) (hpc : s.pc p = .waiting b write i) (hbusy : s.busy b = false) :
    Inv { s with
      disk := { s.disk with
        info := update s.disk.info i.i0 { s.disk.info i.i0 with b := none } }
      pc := update s.pc p (.freeing b i i.i0) } availQ usedQ := by
  have hdo := h.doing p
  rw [hpc] at hdo
  obtain ⟨hf, hu⟩ := hdo
  obtain ⟨hA, hC, hst⟩ : i.i0 ∉ s.asked availQ ∧ i.i0 ∉ s.answered usedQ ∧
      stage b s.events = some .cleared := by
    cases hu with
    | asked _ _ h3 | answered _ _ h3 => exact absurd (hbusy.symm.trans h3) Bool.false_ne_true
    | cleared h1 h2 _ h4 => exact ⟨h1, h2, h4⟩
  have howns : (Pc.freeing b i i.i0).owns = (s.pc p).owns := by
    rw [hpc]
    funext k
    simp [Pc.owns]
  refine h.local_same (p := p) (c := .freeing b i i.i0) ?_ (h.owned_same rfl rfl howns) h.avail ?_ ?_
  · refine h.inside (b := b) (by rw [hpc]; rfl) (by rw [hpc]; rfl) rfl rfl rfl (fun _ => rfl) rfl
      ⟨rfl, rfl⟩ ⟨rfl, rfl⟩ ?_ (fun _ _ => ⟨rfl, rfl⟩)
    intro d _ hd
    have hd0 : d ≠ i.i0 := fun he => hd 0 (by rw [hpc, he]; rfl)
    exact ⟨rfl, rfl, update_of_ne hd0 ..⟩
  · intro d hd hin
    rw [hpc] at hd
    cases hd
    exact ((List.mem_append.mp hin).elim hA hC).elim
  · refine ⟨h.entry_ne (p := p) (fun k => by rw [hpc]; rfl), .first ?_ ?_ ?_, hst⟩
    · simp only [Linked, hf.desc0]
      decide
    · simp only [Linked, hf.desc1]
      cases write <;> decide
    · simp only [Last, hf.desc2]
      decide

theorem Inv.freeOne (h : Inv s availQ usedQ) {k : Fin 3} (hpc : s.pc p = .freeing b i j)
    (hk : (s.pc p).owns k = some j) (hcb : c.buf = some b)
    (howns : c.owns = update (s.pc p).owns k none)
    (hdoing : Doing { s with
      disk := { s.disk with
        free := update s.disk.free j true
        desc := update s.disk.desc j ⟨.null, 0, 0, 0⟩ }
      pc := update s.pc p c } (s.asked availQ) (s.answered usedQ) c) :
    Inv { s with
      disk := { s.disk with
        free := update s.disk.free j true
        desc := update s.disk.desc j ⟨.null, 0, 0, 0⟩ }
      pc := update s.pc p c } availQ usedQ := by
  refine h.local_same (p := p) (c := c) ?_ ?_ h.avail ?_ hdoing
  · refine h.inside (b := b) (by rw [hpc]; rfl) (by rw [hpc]; rfl) hcb rfl rfl (fun _ => rfl) rfl
      ⟨rfl, rfl⟩ ⟨rfl, rfl⟩ ?_ (fun _ _ => ⟨rfl, rfl⟩)
    intro d _ hd
    have hne : d ≠ j := fun he => hd k (he ▸ hk)
    exact ⟨update_of_ne hne .., rfl, rfl⟩
  · have hown : Owned _ (fun d => update s.disk.free j true d = false) _ :=
      h.owned.clear (i := (p, k)) hk (fun _ => update_true_iff)
    convert hown using 1
    funext x
    obtain ⟨q, k'⟩ := x
    obtain rfl | hq := eq_or_ne q p
    · simp only [Sys.ptr, update_self, howns]
      obtain rfl | hk' := eq_or_ne k' k
      · simp
      · simp [hk', Sys.ptr]
    · simp [Sys.ptr, hq]
  · intro d hd
    rw [hpc] at hd
    cases hd

theorem Inv.free (h : Inv s availQ usedQ) (hpc : s.pc p = .freeing b i j) :
    ∃ t, rwStep s p = some t ∧ Inv t availQ usedQ := by
  have hdo := h.doing p
  rw [hpc] at hdo
  obtain ⟨hne, hfr, hst⟩ := hdo
  obtain ⟨hne10, hne20, hne21⟩ := hne
  obtain ⟨k, hk⟩ := hfr.owns (b := b)
  have hk' : (s.pc p).owns k = some j := hpc ▸ hk
  have hok := freeDesc_ok (d := s.disk) (g := s.disk.desc) (h.lt_num hk')
    (h.owned.used_of_ptr (i := (p, k)) hk')
  simp only [rwStep, hpc, hok]
  cases hfr with
  | first h0 h1 h2 =>
    refine ⟨_, if_pos h0.1, ?_⟩
    rw [h0.2]
    refine h.freeOne (k := 0) hpc (by rw [hpc]; simp [Pc.owns, Idx.entry]) rfl ?_
      ⟨⟨hne10, hne20, hne21⟩, .second ?_ ?_, hst⟩
    · rw [hpc]
      refine owners_ext ?_ ?_ ?_
      · simp [Pc.owns, hne10, Ne.symm hne21]
      · simp [Pc.owns]
      · simp [Pc.owns]
    · simpa [Linked, hne10] using h1
    · simpa [Last, hne20] using h2
  | second h1 h2 =>
    refine ⟨_, if_pos h1.1, ?_⟩
    rw [h1.2]
    refine h.freeOne (k := 1) hpc (by rw [hpc]; simp [Pc.owns, Idx.entry]) rfl ?_
      ⟨⟨hne10, hne20, hne21⟩, .third ?_, hst⟩
    · rw [hpc]
      refine owners_ext ?_ ?_ ?_
      · simp [Pc.owns, hne10, hne20, hne21, Ne.symm hne21]
      · simp [Pc.owns, hne20, hne21]
      · simp [Pc.owns]
    · simpa [Last, hne21] using h2
  | third h2 =>
    refine ⟨_, if_neg (not_not.mpr h2), ?_⟩
    refine h.freeOne (k := 2) (c := .leaving b) hpc (by rw [hpc]; simp [Pc.owns, Idx.entry]) rfl ?_ hst
    rw [hpc]
    refine owners_ext ?_ ?_ ?_
    · simp [Pc.owns, hne20, hne21]
    · simp [Pc.owns, hne20, hne21]
    · simp [Pc.owns]

theorem Inv.leave (h : Inv s availQ usedQ) (hpc : s.pc p = .leaving b) :
    Inv { s with
      pc := update s.pc p .idle
      lock := none
      events := .returned b :: s.events } availQ usedQ := by
  have hdo := h.doing p
  rw [hpc] at hdo
  refine h.local_same (p := p) (c := .idle) ?_ (h.owned_same rfl rfl (by rw [hpc]; rfl)) h.avail ?_ trivial
  · refine ⟨rfl, h.fine, .inr (h.locked p (by rw [hpc]; rfl)), (fun hc => by cases hc), (fun _ hc => by cases hc),
      rfl, rfl, rfl, rfl, rfl, fun _ _ _ => ⟨rfl, rfl, rfl⟩, fun _ _ _ => rfl, ?_, ?_⟩
    · intro b' hb'
      exact stage_other (fun he => hb' (by rw [hpc]; exact congrArg some he))
    · intro b' hb' _
      rw [hpc] at hb'
      cases hb'
      exact stage_returned hdo
  · rw [hpc]
    rintro d ⟨⟩

theorem Inv.rwStep (h : Inv s availQ usedQ) (hs : rwStep s p = some t) : ∃ availQ', Inv t availQ' usedQ := by
  cases hpc : s.pc p with
  | idle => simp [Virtio.rwStep, hpc] at hs
  | allocating b write =>
    obtain ⟨desc, halloc, hdesc⟩ | ⟨i, h0, h1, h2, halloc⟩ := alloc3Desc_cases s.disk
    · simp only [Virtio.rwStep, hpc, halloc] at hs
      cases hs
      exact ⟨_, h.allocFail hpc hdesc⟩
    · simp only [Virtio.rwStep, hpc, halloc] at hs
      cases hs
      exact ⟨_, h.alloc hpc h0 h1 h2⟩
  | wantDesc b write =>
    simp only [Virtio.rwStep, hpc, Option.ite_none_right_eq_some] at hs
    cases hs.2
    exact ⟨_, h.retry hpc hs.1⟩
  | formatting b write i =>
    simp only [Virtio.rwStep, hpc] at hs
    cases hs
    exact ⟨_, h.format hpc⟩
  | ringing b write i =>
    simp only [Virtio.rwStep, hpc] at hs
    cases hs
    exact ⟨_, h.ring hpc⟩
  | counting b write i =>
    simp only [Virtio.rwStep, hpc] at hs
    cases hs
    exact ⟨_, h.count hpc⟩
  | waiting b write i =>
    simp only [Virtio.rwStep, hpc] at hs
    split at hs
    · cases hs
      exact ⟨_, h.goToSleep hpc⟩
    · next hbusy =>
      cases hs
      exact ⟨_, h.finish hpc (by simpa using hbusy)⟩
  | sleeping b write i =>
    simp only [Virtio.rwStep, hpc, Option.ite_none_right_eq_some] at hs
    cases hs.2
    exact ⟨_, h.wake hpc hs.1⟩
  | freeing b i j =>
    obtain ⟨u, hu, hinv⟩ := h.free hpc
    cases hs.symm.trans hu
    exact ⟨_, hinv⟩
  | leaving b =>
    simp only [Virtio.rwStep, hpc] at hs
    cases hs
    exact ⟨_, h.leave hpc⟩

end Xv6.Virtio
