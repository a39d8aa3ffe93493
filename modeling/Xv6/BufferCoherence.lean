import Xv6.BufferCache

namespace Xv6.BufferCache

open Xv6.Lib Function

def Holds (s : Kernel) (i b : Nat) : Prop :=
  i ∈ s.lru ∧ (s.buf i).dev = s.log.dev ∧ (s.buf i).blockno = b

/-- The cache shows the contents `v` for the blocks in `care`. Those pinned by `pin` and the buffers in `held`
may be newer than the disk; the rest of `care` agrees with it. -/
structure Cached (care : Nat → Prop) (pin : Nat → Nat) (v : Nat → Block) (held : List (Nat × Nat))
    (s : Kernel) : Prop where
  unique : ∀ i j b, Holds s i b → Holds s j b → i = j
  counted : ∀ i ∈ s.lru, (if (s.buf i).dev = s.log.dev then pin (s.buf i).blockno else 0) +
    (if (s.buf i).locked then 1 else 0) ≤ (s.buf i).refcnt
  data : ∀ i b, care b → Holds s i b → (s.buf i).valid = true → (s.buf i).data = v b
  disk : ∀ b, care b → pin b = 0 → b ∉ held.map Prod.snd → s.disk b = v b
  present : ∀ b, 0 < pin b → ∃ i, Holds s i b ∧ (s.buf i).valid = true
  own : ∀ i b, (i, b) ∈ held → Holds s i b ∧ (s.buf i).valid = true ∧ (s.buf i).locked = true
  locks : ∀ i ∈ s.lru, (s.buf i).locked = true → ∃ b, (i, b) ∈ held
  nodup : held.Nodup

theorem Cached.weaken {care care' : Nat → Prop} {pin : Nat → Nat} {v : Nat → Block}
    {held : List (Nat × Nat)} {s : Kernel} (h : Cached care pin v held s)
    (hc : ∀ b, care' b → care b) : Cached care' pin v held s :=
  ⟨h.unique, h.counted, fun i b hb => h.data i b (hc b hb), fun b hb => h.disk b (hc b hb),
    h.present, h.own, h.locks, h.nodup⟩

def Frame (s t : Kernel) : Prop := t.disk = s.disk ∧ t.power = s.power ∧ t.log = s.log

theorem Frame.refl (s : Kernel) : Frame s s := ⟨rfl, rfl, rfl⟩

variable {t : Kernel}

theorem Frame.trans {s u : Kernel} (h : Frame s t) (h' : Frame t u) : Frame s u :=
  ⟨h'.1.trans h.1, h'.2.1.trans h.2.1, h'.2.2.trans h.2.2⟩

variable {care : Nat → Prop} {pin : Nat → Nat} {v : Nat → Block} {held : List (Nat × Nat)} {s : Kernel}
  {b dev i : Nat} {Q : PUnit → Kernel → Prop} {E : Stop → Kernel → Prop}

structure Fetched (s : Kernel) (v : Nat → Block) (i b : Nat) (B : Buf) : Prop where
  mem : i ∈ s.lru
  valid : B.valid = true
  dev : B.dev = s.log.dev
  blockno : B.blockno = b
  locked : B.locked = true
  data : B.data = v b
  origin : (Holds s i b ∧ B.refcnt = (s.buf i).refcnt + 1) ∨
    ((∀ j, ¬ Holds s j b) ∧ (s.buf i).refcnt = 0 ∧ B.refcnt = 1)

theorem Cached.pin_eq_zero (h : Cached care pin v held s)
    (hb : ∀ j, Holds s j b → (s.buf j).valid = false) : pin b = 0 := by
  by_contra hp
  obtain ⟨j, hj, hv⟩ := h.present b (by omega)
  simp [hb j hj] at hv

theorem bget_find {blockno : Nat}
    (h : s.lru.find? (fun i => (s.buf i).dev == dev && (s.buf i).blockno == blockno) = some i) :
    i ∈ s.lru ∧ (s.buf i).dev = dev ∧ (s.buf i).blockno = blockno := by
  have hp := List.find?_some h
  simp only [Bool.and_eq_true, beq_iff_eq] at hp
  exact ⟨List.mem_of_find?_eq_some h, hp.1, hp.2⟩

theorem Cached.unlocked (h : Cached care pin v held s) (hi : Holds s i b)
    (hb : b ∉ held.map Prod.snd) : (s.buf i).locked = false := by
  by_contra hl
  obtain ⟨b', hb'⟩ := h.locks i hi.1 (by simpa using hl)
  have hbb : b' = b := (h.own i b' hb').1.2.2.symm.trans hi.2.2
  exact hb (List.mem_map.mpr ⟨(i, b'), hb', hbb⟩)

theorem Cached.unlocked_of_free (h : Cached care pin v held s) (hi : i ∈ s.lru)
    (hr : (s.buf i).refcnt = 0) : (s.buf i).locked = false := by
  have hc := h.counted i hi
  cases hl : (s.buf i).locked with
  | false => rfl
  | true => simp only [hl, hr, ↓reduceIte] at hc; omega

def taken (s : Kernel) (B : Buf) : Buf :=
  { B with
    refcnt := B.refcnt + 1
    locked := true
    valid := true
    data := if B.valid then B.data else s.disk B.blockno }

theorem acquiresleep_ensures (hl : (s.buf i).locked = false)
    (h : Q ⟨⟩ { s with buf := update s.buf i { s.buf i with locked := true } }) :
    Ensures (acquiresleep i) s Q E := by
  unfold acquiresleep
  apply Ensures.bind_get
  rw [if_neg (by simp [hl])]
  exact .modify h

theorem fill_ensures
    (h : Q ⟨⟩ { s with buf := update s.buf i { s.buf i with
      valid := true
      data := if (s.buf i).valid then (s.buf i).data else s.disk (s.buf i).blockno } }) :
    Ensures (fill i) s Q E := by
  unfold fill
  apply Ensures.bind_get
  by_cases hv : (s.buf i).valid = true
  · have hsame : { s.buf i with
        valid := true
        data := (s.buf i).data } = s.buf i := by rw [← hv]
    rw [if_pos hv, hsame, update_eq_self] at h
    rw [if_pos hv]
    exact .pure h
  · rw [if_neg hv] at h
    rw [if_neg hv]
    unfold virtioDiskRw setBuf
    apply Ensures.bind
    apply Ensures.bind_get
    apply Ensures.modify
    apply Ensures.modify
    simpa using h

theorem bread_spec {Q : Nat → Kernel → Prop}
    (hhit : ∀ i ∈ s.lru, (s.buf i).dev = dev → (s.buf i).blockno = b →
      (s.buf i).locked = false ∧ Q i { s with buf := update s.buf i (taken s (s.buf i)) })
    (hmiss : (∀ j ∈ s.lru, ¬ ((s.buf j).dev = dev ∧ (s.buf j).blockno = b)) →
      ∀ i ∈ s.lru, (s.buf i).refcnt = 0 → (s.buf i).locked = false ∧
        Q i { s with buf := update s.buf i ⟨true, dev, b, true, 1, s.disk b⟩ })
    (hfull : (∀ j ∈ s.lru, ¬ ((s.buf j).dev = dev ∧ (s.buf j).blockno = b)) →
      (∀ i ∈ s.lru, (s.buf i).refcnt ≠ 0) → E (.panic "bget: no buffers") s) :
    Ensures (bread dev b) s Q E := by
  unfold bread bget bgetRef
  apply Ensures.bind
  apply Ensures.bind
  apply Ensures.bind_get
  split
  · rename_i i hf
    obtain ⟨hm, hd, hbn⟩ := bget_find hf
    obtain ⟨hl, hQ⟩ := hhit i hm hd hbn
    apply Ensures.bind_modify
    apply Ensures.pure
    apply Ensures.bind
    refine acquiresleep_ensures (by simpa using hl) ?_
    apply Ensures.pure
    apply Ensures.bind
    refine fill_ensures (.pure ?_)
    simpa [taken] using hQ
  · rename_i hnone
    have hno : ∀ j ∈ s.lru, ¬ ((s.buf j).dev = dev ∧ (s.buf j).blockno = b) := by
      intro j hj
      simpa using List.find?_eq_none.mp hnone j hj
    split
    · rename_i i hf
      have hm : i ∈ s.lru := List.mem_reverse.mp (List.mem_of_find?_eq_some hf)
      obtain ⟨hl, hQ⟩ := hmiss hno i hm (by simpa using List.find?_some hf)
      apply Ensures.bind_modify
      apply Ensures.pure
      apply Ensures.bind
      refine acquiresleep_ensures (by simpa using hl) ?_
      apply Ensures.pure
      apply Ensures.bind
      refine fill_ensures (.pure ?_)
      simpa using hQ
    · rename_i hnone'
      refine .throw (hfull hno (fun i hi => ?_))
      simpa using List.find?_eq_none.mp hnone' i (List.mem_reverse.mpr hi)

theorem bread_fetches (h : Cached care pin v held s) (hcare : care b) (hb : b ∉ held.map Prod.snd)
    {Q : Nat → Kernel → Prop} (hQ : ∀ i B, Fetched s v i b B → Q i { s with buf := update s.buf i B })
    (hE : E (.panic "bget: no buffers") s) : Ensures (bread s.log.dev b) s Q E := by
  apply bread_spec
  · intro i hm hd hbn
    have hi : Holds s i b := ⟨hm, hd, hbn⟩
    refine ⟨h.unlocked hi hb, hQ i _ ⟨hm, rfl, hd, hbn, rfl, ?_, .inl ⟨hi, rfl⟩⟩⟩
    by_cases hv : (s.buf i).valid = true
    · simpa only [taken, hv, ↓reduceIte] using h.data i b hcare hi hv
    · have hv' : (s.buf i).valid = false := by simpa using hv
      have hp : pin b = 0 := h.pin_eq_zero (fun j hj => h.unique i j b hi hj ▸ hv')
      simpa only [taken, hv, hbn, Bool.false_eq_true, ↓reduceIte] using h.disk b hcare hp hb
  · intro hno i hm hr
    have hno : ∀ j, ¬ Holds s j b := fun j hj => hno j hj.1 hj.2
    have hp : pin b = 0 := h.pin_eq_zero (fun j hj => absurd hj (hno j))
    exact ⟨h.unlocked_of_free hm hr,
      hQ i _ ⟨hm, rfl, rfl, rfl, rfl, h.disk b hcare hp hb, .inr ⟨hno, hr, rfl⟩⟩⟩
  · intro _ _
    exact hE

theorem holds_update {j b' : Nat} {B : Buf} (hd : B.dev = s.log.dev) (hb : B.blockno = b) :
    Holds { s with buf := update s.buf i B } j b' ↔
      (j = i ∧ i ∈ s.lru ∧ b' = b) ∨ (j ≠ i ∧ Holds s j b') := by
  obtain rfl | hj := eq_or_ne j i
  · simp [Holds, hd, hb, eq_comm]
  · simp [Holds, hj]

theorem Cached.fetch (h : Cached care pin v held s) {B : Buf} (hb : b ∉ held.map Prod.snd)
    (hf : Fetched s v i b B) :
    Cached care pin v ((i, b) :: held) { s with buf := update s.buf i B } := by
  have hold : ∀ {j b' : Nat}, Holds { s with buf := update s.buf i B } j b' ↔
      (j = i ∧ i ∈ s.lru ∧ b' = b) ∨ (j ≠ i ∧ Holds s j b') := holds_update hf.dev hf.blockno
  have hkeep : ∀ j b', Holds s j b' → j = i → 0 < (s.buf j).refcnt → b' = b := by
    rintro j b' hj rfl hr
    rcases hf.origin with ⟨hi, _⟩ | ⟨_, h0, _⟩
    · exact hj.2.2.symm.trans hi.2.2
    · omega
  have hsame : ∀ j, Holds s j b → j = i := by
    intro j hj
    rcases hf.origin with ⟨hi, _⟩ | ⟨hno, _⟩
    · exact h.unique j i b hj hi
    · exact absurd hj (hno j)
  have hpin : ∀ j b', Holds s j b' → pin b' ≤ (s.buf j).refcnt := by
    rintro j b' ⟨hm, hd, rfl⟩
    have := h.counted j hm
    simp only [hd, ↓reduceIte] at this
    omega
  have hlocked : ∀ j b', (j, b') ∈ held → j ≠ i := by
    intro j b' hm hj
    obtain ⟨ho, _, hl⟩ := h.own j b' hm
    have hc := h.counted j ho.1
    simp only [hl, ↓reduceIte] at hc
    exact hb (List.mem_map.mpr ⟨(j, b'), hm, hkeep j b' ho hj (by omega)⟩)
  refine ⟨?_, ?_, ?_, ?_, ?_, ?_, ?_, ?_⟩
  · intro j k b' hj hk
    rcases hold.mp hj with ⟨hji, _, hjb⟩ | ⟨hji, hj'⟩ <;>
      rcases hold.mp hk with ⟨hki, _, hkb⟩ | ⟨hki, hk'⟩
    · exact hji.trans hki.symm
    · exact absurd (hsame k (hjb ▸ hk')) hki
    · exact absurd (hsame j (hkb ▸ hj')) hji
    · exact h.unique j k b' hj' hk'
  · intro j hj
    obtain rfl | hji := eq_or_ne j i
    · simp only [update_self, hf.dev, hf.blockno, hf.locked, ↓reduceIte]
      rcases hf.origin with ⟨hi, hr⟩ | ⟨hno, _, hr⟩
      · have := hpin j b hi
        omega
      · have : pin b = 0 := h.pin_eq_zero (fun k hk => absurd hk (hno k))
        omega
    · simpa only [update_of_ne hji] using h.counted j hj
  · intro j b' hc hj hv
    rcases hold.mp hj with ⟨rfl, _, rfl⟩ | ⟨hji, hj⟩
    · simpa only [update_self] using hf.data
    · simp only [update_of_ne hji] at hv ⊢
      exact h.data j b' hc hj hv
  · intro b' hc hp hb'
    simp only [List.map_cons, List.mem_cons, not_or] at hb'
    exact h.disk b' hc hp hb'.2
  · intro b' hp
    obtain ⟨j, hj, hv⟩ := h.present b' hp
    by_cases hji : j = i
    · have hr := hpin j b' hj
      have := hkeep j b' hj hji (by omega)
      exact ⟨i, hold.mpr (.inl ⟨rfl, hf.mem, this⟩), by simpa only [update_self] using hf.valid⟩
    · exact ⟨j, hold.mpr (.inr ⟨hji, hj⟩), by simpa only [update_of_ne hji] using hv⟩
  · intro j b' hm
    rcases List.mem_cons.mp hm with hm | hm
    · cases hm
      exact ⟨hold.mpr (.inl ⟨rfl, hf.mem, rfl⟩), by simpa only [update_self] using hf.valid,
        by simpa only [update_self] using hf.locked⟩
    · have hji := hlocked j b' hm
      obtain ⟨ho, hv, hl⟩ := h.own j b' hm
      exact ⟨hold.mpr (.inr ⟨hji, ho⟩), by simpa only [update_of_ne hji] using hv,
        by simpa only [update_of_ne hji] using hl⟩
  · intro j hj hl
    by_cases hji : j = i
    · exact ⟨b, by simp [hji]⟩
    · simp only [update_of_ne hji] at hl
      obtain ⟨b', hb'⟩ := h.locks j hj hl
      exact ⟨b', List.mem_cons_of_mem _ hb'⟩
  · exact List.nodup_cons.mpr ⟨fun hm => hb (List.mem_map.mpr ⟨(i, b), hm, rfl⟩), h.nodup⟩

theorem bread_ensures (h : Cached care pin v held s) (hcare : care b) (hb : b ∉ held.map Prod.snd) :
    Ensures (bread s.log.dev b) s (fun i t => Cached care pin v ((i, b) :: held) t ∧ Frame s t)
      (fun _ t => t = s) :=
  bread_fetches h hcare hb (fun _ _ hf => ⟨h.fetch hb hf, rfl, rfl, rfl⟩) rfl

theorem Cached.write (h : Cached care pin v held s) (hm : (i, b) ∈ held) (x : Block) :
    Cached care pin (update v b x) held
      { s with buf := update s.buf i { s.buf i with data := x } } := by
  obtain ⟨ho, hv, hl⟩ := h.own i b hm
  have hold : ∀ j b', Holds { s with buf := update s.buf i { s.buf i with data := x } } j b' ↔
      Holds s j b' := by
    intro j b'
    obtain rfl | hji := eq_or_ne j i
    · simp [Holds]
    · simp [Holds, hji]
  have hfield : ∀ j, ((update s.buf i { s.buf i with data := x }) j).valid = (s.buf j).valid ∧
      ((update s.buf i { s.buf i with data := x }) j).locked = (s.buf j).locked := by
    intro j
    obtain rfl | hji := eq_or_ne j i
    · simp
    · simp [hji]
  refine ⟨?_, ?_, ?_, ?_, ?_, ?_, ?_, h.nodup⟩
  · intro j k b' hj hk
    exact h.unique j k b' ((hold j b').mp hj) ((hold k b').mp hk)
  · intro j hj
    have hc := h.counted j hj
    obtain rfl | hji := eq_or_ne j i
    · simpa only [update_self] using hc
    · simpa only [update_of_ne hji] using hc
  · intro j b' hc hj hv'
    have hj' := (hold j b').mp hj
    rw [(hfield j).1] at hv'
    obtain rfl | hji := eq_or_ne j i
    · have : b' = b := hj'.2.2.symm.trans ho.2.2
      simp [this]
    · have : b' ≠ b := fun hbb => hji (h.unique j i b' hj' (hbb ▸ ho))
      simpa [hji, this] using h.data j b' hc hj' hv'
  · intro b' hc hp hb'
    have hne : b' ≠ b := fun hbb => hb' (List.mem_map.mpr ⟨(i, b), hm, hbb.symm⟩)
    simpa [hne] using h.disk b' hc hp hb'
  · intro b' hp
    obtain ⟨j, hj, hv'⟩ := h.present b' hp
    exact ⟨j, (hold j b').mpr hj, (hfield j).1.trans hv'⟩
  · intro j b' hm'
    obtain ⟨ho', hv', hl'⟩ := h.own j b' hm'
    exact ⟨(hold j b').mpr ho', (hfield j).1.trans hv', (hfield j).2.trans hl'⟩
  · intro j hj hl'
    exact h.locks j hj ((hfield j).2.symm.trans hl')

theorem bwrite_ensures (h : Cached care pin v held s) (hcare : care b) (hm : (i, b) ∈ held) :
    Ensures (bwrite i) s (fun _ t => Cached care pin v held t ∧ t.disk = update s.disk b (v b) ∧
        t.power + 1 = s.power ∧ t.log = s.log ∧ t.buf = s.buf)
      (fun _ t => t = s ∧ s.power = 0) := by
  obtain ⟨ho, hv, hl⟩ := h.own i b hm
  have hd : (s.buf i).data = v b := h.data i b hcare ho hv
  have hb : (s.buf i).blockno = b := ho.2.2
  unfold bwrite virtioDiskRw
  apply Ensures.bind_get
  rw [if_pos hl]
  apply Ensures.bind_get
  rw [if_pos rfl]
  by_cases hp : s.power = 0
  · rw [if_pos hp]
    exact .throw ⟨rfl, hp⟩
  · rw [if_neg hp]
    refine ⟨⟨h.unique, h.counted, h.data, ?_, h.present, h.own, h.locks, h.nodup⟩, ?_, ?_, rfl, rfl⟩
    · intro b' hc hp' hb'
      have hne : b' ≠ (s.buf i).blockno := fun he =>
        hb' (List.mem_map.mpr ⟨(i, b), hm, (he.trans hb).symm⟩)
      simpa [hne] using h.disk b' hc hp' hb'
    · simp only [hb, hd]
    · show s.power - 1 + 1 = s.power
      omega

/-- Buffer `i` of `t` differs from that of `s` at most in its lock and count, and the
list may be in another order. -/
structure Recounted (s t : Kernel) (i : Nat) : Prop where
  mem : ∀ j, j ∈ t.lru ↔ j ∈ s.lru
  other : ∀ j, j ≠ i → t.buf j = s.buf j
  dev : (t.buf i).dev = (s.buf i).dev
  blockno : (t.buf i).blockno = (s.buf i).blockno
  valid : (t.buf i).valid = (s.buf i).valid
  data : (t.buf i).data = (s.buf i).data
  frame : Frame s t

theorem Recounted.fields (h : Recounted s t i) (j : Nat) :
    (t.buf j).dev = (s.buf j).dev ∧ (t.buf j).blockno = (s.buf j).blockno ∧
      (t.buf j).valid = (s.buf j).valid ∧ (t.buf j).data = (s.buf j).data := by
  obtain rfl | hji := eq_or_ne j i
  · exact ⟨h.dev, h.blockno, h.valid, h.data⟩
  · simp [h.other j hji]

theorem Recounted.holds (h : Recounted s t i) (j b : Nat) :
    Holds t j b ↔ Holds s j b := by
  obtain ⟨hd, hb, _, _⟩ := h.fields j
  simp only [Holds, h.mem j, hd, hb, h.frame.2.2]

theorem Cached.release (h : Cached care pin v held s) (hm : (i, b) ∈ held)
    (hr : Recounted s t i) (hl : (t.buf i).locked = false)
    (hc : (s.buf i).refcnt ≤ (t.buf i).refcnt + 1) (hclean : pin b = 0 → s.disk b = v b) :
    Cached care pin v (held.erase (i, b)) t := by
  have hmem : ∀ j b', (j, b') ∈ held.erase (i, b) → j ≠ i ∧ (j, b') ∈ held := by
    intro j b' hj
    obtain ⟨hne, hj'⟩ := (List.Nodup.mem_erase_iff h.nodup).mp hj
    refine ⟨fun hji => hne ?_, hj'⟩
    subst hji
    have hbb : b' = b := (h.own j b' hj').1.2.2.symm.trans (h.own j b hm).1.2.2
    rw [hbb]
  refine ⟨?_, ?_, ?_, ?_, ?_, ?_, ?_, h.nodup.erase _⟩
  · intro j k b' hj hk
    exact h.unique j k b' ((hr.holds j b').mp hj) ((hr.holds k b').mp hk)
  · intro j hj
    have hcj := h.counted j ((hr.mem j).mp hj)
    obtain rfl | hji := eq_or_ne j i
    · rw [(h.own j b hm).2.2] at hcj
      simp only [hr.dev, hr.blockno, hl, hr.frame.2.2, ↓reduceIte, Bool.false_eq_true] at hcj ⊢
      omega
    · simpa only [hr.other j hji, hr.frame.2.2] using hcj
  · intro j b' hc' hj hv
    obtain ⟨_, _, hv', hd'⟩ := hr.fields j
    rw [hd']
    exact h.data j b' hc' ((hr.holds j b').mp hj) (hv'.symm.trans hv)
  · intro b' hc' hp hb'
    rw [hr.frame.1]
    obtain rfl | hbb := eq_or_ne b' b
    · exact hclean hp
    · refine h.disk b' hc' hp (fun hin => hb' ?_)
      obtain ⟨⟨j, b''⟩, hj, rfl⟩ := List.mem_map.mp hin
      have hne : (j, b'') ≠ (i, b) := fun he => hbb (congrArg Prod.snd he)
      exact List.mem_map.mpr ⟨(j, b''), (List.mem_erase_of_ne hne).mpr hj, rfl⟩
  · intro b' hp
    obtain ⟨j, hj, hv⟩ := h.present b' hp
    exact ⟨j, (hr.holds j b').mpr hj, (hr.fields j).2.2.1.trans hv⟩
  · intro j b' hj
    obtain ⟨hji, hj'⟩ := hmem j b' hj
    obtain ⟨ho, hv, hl'⟩ := h.own j b' hj'
    exact ⟨(hr.holds j b').mpr ho, (hr.fields j).2.2.1.trans hv, by rw [hr.other j hji]; exact hl'⟩
  · intro j hj hlj
    obtain rfl | hji := eq_or_ne j i
    · simp [hl] at hlj
    · rw [hr.other j hji] at hlj
      obtain ⟨b', hb'⟩ := h.locks j ((hr.mem j).mp hj) hlj
      exact ⟨b', (List.mem_erase_of_ne (fun he => hji (congrArg Prod.fst he))).mpr hb'⟩

theorem Cached.held_pos (h : Cached care pin v held s) (hm : (i, b) ∈ held) :
    pin b + 1 ≤ (s.buf i).refcnt := by
  obtain ⟨⟨ho, hd, rfl⟩, _, hl⟩ := h.own i b hm
  have hc := h.counted i ho
  simpa only [hl, hd, ↓reduceIte] using hc

theorem decr_pos {r : Nat} (h : 0 < r) : decr r + 1 = r := by
  unfold decr
  split <;> omega

theorem brelse_spec (hi : i ∈ s.lru)
    (hl : (s.buf i).locked = true)
    (hQ : ∀ t, t.buf = update s.buf i
        { s.buf i with locked := false, refcnt := decr (s.buf i).refcnt } →
      (∀ j, j ∈ t.lru ↔ j ∈ s.lru) → Frame s t → Q ⟨⟩ t) : Ensures (brelse i) s Q E := by
  unfold brelse
  apply Ensures.bind_get
  rw [if_pos hl]
  apply Ensures.bind_modify
  unfold brelseRef
  apply Ensures.bind_get
  apply Ensures.bind_modify
  simp only [update_self, update_idem]
  split
  · apply Ensures.modify
    exact hQ _ rfl (fun j => (List.perm_cons_erase hi).symm.mem_iff) ⟨rfl, rfl, rfl⟩
  · exact .pure (hQ _ rfl (fun _ => Iff.rfl) ⟨rfl, rfl, rfl⟩)

theorem brelse_ensures (h : Cached care pin v held s) (hm : (i, b) ∈ held)
    (hclean : pin b = 0 → s.disk b = v b) :
    Completes (brelse i) s (fun _ t => Cached care pin v (held.erase (i, b)) t ∧ Frame s t) := by
  obtain ⟨ho, hv, hl⟩ := h.own i b hm
  have hpos := decr_pos (r := (s.buf i).refcnt) (by have := h.held_pos hm; omega)
  refine brelse_spec ho.1 hl (fun t ht hmem hframe => ?_)
  have hr : Recounted s t i :=
    ⟨hmem, fun j hj => by simp [ht, hj], by simp [ht], by simp [ht], by simp [ht], by simp [ht], hframe⟩
  exact ⟨h.release hm hr (by simp [ht]) (by simp [ht]; omega) hclean, hframe⟩

theorem bunpin_ensures (h : Cached care pin v held s) (hm : (i, b) ∈ held) (hp : pin b = 1) :
    Completes (bunpin i) s (fun _ t => Cached care (update pin b 0) v held t ∧ Frame s t) := by
  obtain ⟨ho, hv, hl⟩ := h.own i b hm
  have hpos := h.held_pos hm
  have hdec := decr_pos (r := (s.buf i).refcnt) (by omega)
  unfold bunpin
  apply Ensures.bind_get
  apply Ensures.modify
  have hr : Recounted s { s with
      buf := update s.buf i { s.buf i with refcnt := decr (s.buf i).refcnt } } i :=
    ⟨fun _ => Iff.rfl, fun j hj => by simp [hj], by simp, by simp, by simp, by simp, rfl, rfl, rfl⟩
  refine ⟨⟨?_, ?_, ?_, ?_, ?_, ?_, ?_, h.nodup⟩, hr.frame⟩
  · intro j k b' hj hk
    exact h.unique j k b' ((hr.holds j b').mp hj) ((hr.holds k b').mp hk)
  · intro j hj
    have hcj := h.counted j hj
    obtain rfl | hji := eq_or_ne j i
    · simp only [update_self, ho.2.1, ho.2.2, hl, ↓reduceIte]
      omega
    · simp only [update_of_ne hji]
      by_cases hjb : (s.buf j).dev = s.log.dev ∧ (s.buf j).blockno = b
      · exact absurd (h.unique j i b ⟨hj, hjb⟩ ho) hji
      · by_cases hd : (s.buf j).dev = s.log.dev
        · have hne : (s.buf j).blockno ≠ b := fun he => hjb ⟨hd, he⟩
          simpa only [hd, update_of_ne hne] using hcj
        · simpa only [hd, ↓reduceIte] using hcj
  · intro j b' hc hj hv'
    obtain ⟨_, _, hv'', hd'⟩ := hr.fields j
    rw [hd']
    exact h.data j b' hc ((hr.holds j b').mp hj) (hv''.symm.trans hv')
  · intro b' hc hp' hb'
    have hne : b' ≠ b := fun hbb => hb' (List.mem_map.mpr ⟨(i, b), hm, hbb.symm⟩)
    exact h.disk b' hc (by simpa [hne] using hp') hb'
  · intro b' hp'
    have hne : b' ≠ b := by
      rintro rfl
      simp at hp'
    obtain ⟨j, hj, hv'⟩ := h.present b' (by simpa [hne] using hp')
    exact ⟨j, (hr.holds j b').mpr hj, (hr.fields j).2.2.1.trans hv'⟩
  · intro j b' hm'
    obtain ⟨ho', hv', hl'⟩ := h.own j b' hm'
    refine ⟨(hr.holds j b').mpr ho', (hr.fields j).2.2.1.trans hv', ?_⟩
    obtain rfl | hji := eq_or_ne j i
    · simpa using hl
    · rw [hr.other j hji]
      exact hl'
  · intro j hj hlj
    refine h.locks j hj ?_
    obtain rfl | hji := eq_or_ne j i
    · exact hl
    · rwa [hr.other j hji] at hlj

end Xv6.BufferCache
