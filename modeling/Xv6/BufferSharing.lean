import Xv6.BufferCoherence

namespace Xv6.BufferCache

open Xv6.Lib Function

/-- The buffer cache as several processes share it, with what they refer to, lock and have changed. -/
structure Shared (refs : Nat → Nat) (lock dirty : Nat → Prop) (pin : Nat → Nat) (v : Nat → Block)
    (s : Kernel) : Prop where
  unique : ∀ i j b, Holds s i b → Holds s j b → i = j
  counted : ∀ i ∈ s.lru, (if (s.buf i).dev = s.log.dev then pin (s.buf i).blockno else 0) + refs i ≤
    (s.buf i).refcnt
  named : ∀ i, 0 < refs i → i ∈ s.lru ∧ (s.buf i).dev = s.log.dev
  locks : ∀ i ∈ s.lru, (s.buf i).locked = true ↔ lock i
  held : ∀ i, lock i → 0 < refs i
  owned : ∀ i, dirty i → lock i ∧ (s.buf i).valid = true
  data : ∀ i b, Holds s i b → (s.buf i).valid = true → ¬ dirty i → (s.buf i).data = v b
  disk : ∀ b, pin b = 0 → s.disk b = v b
  present : ∀ b, 0 < pin b → ∃ i, Holds s i b ∧ (s.buf i).valid = true

structure Touched (s t : Kernel) (i : Nat) : Prop where
  mem : ∀ j, j ∈ t.lru ↔ j ∈ s.lru
  other : ∀ j, j ≠ i → t.buf j = s.buf j
  dev : (t.buf i).dev = (s.buf i).dev
  blockno : (t.buf i).blockno = (s.buf i).blockno
  log : t.log.dev = s.log.dev

structure Kept (refs : Nat → Nat) (s t : Kernel) : Prop where
  holds : ∀ j b, 0 < refs j → Holds s j b → Holds t j b
  valid : ∀ j, 0 < refs j → (s.buf j).valid = true → (t.buf j).valid = true

variable {refs R pin P : Nat → Nat} {lock L dirty D : Nat → Prop} {x : PUnit}
variable {v V : Nat → Block} {s t : Kernel} {i b : Nat}

theorem Touched.holds (h : Touched s t i) (j b : Nat) : Holds t j b ↔ Holds s j b := by
  unfold Holds
  rw [h.mem j, h.log]
  obtain rfl | hji := eq_or_ne j i
  · rw [h.dev, h.blockno]
  · rw [h.other j hji]

theorem Touched.kept (h : Touched s t i) (hv : (s.buf i).valid = true → (t.buf i).valid = true) :
    Kept refs s t := by
  refine ⟨fun j b _ hj => (h.holds j b).mpr hj, fun j _ hj => ?_⟩
  obtain rfl | hji := eq_or_ne j i
  · exact hv hj
  · rw [h.other j hji]
    exact hj

section

variable (h : Shared refs lock dirty pin v s)
include h

theorem Shared.holds_of_refs (hr : 0 < refs i) :
    Holds s i (s.buf i).blockno :=
  ⟨(h.named i hr).1, (h.named i hr).2, rfl⟩

theorem Shared.pin_add_refs (hi : Holds s i b) :
    pin b + refs i ≤ (s.buf i).refcnt := by
  obtain ⟨hm, hd, rfl⟩ := hi
  have := h.counted i hm
  rwa [if_pos hd] at this

theorem Shared.pin_eq_zero (hb : ∀ j, Holds s j b → (s.buf j).valid = false) : pin b = 0 := by
  by_contra hp
  obtain ⟨j, hj, hv⟩ := h.present b (by omega)
  simp [hb j hj] at hv

theorem Shared.touch (hi : Holds s i b) (ht : Touched s t i)
    (hother : ∀ j, j ≠ i → R j = refs j ∧ (L j ↔ lock j) ∧ (D j ↔ dirty j))
    (hblock : ∀ c, c ≠ b → P c = pin c ∧ V c = v c ∧ t.disk c = s.disk c)
    (hcount : P b + R i ≤ (t.buf i).refcnt) (hlock : (t.buf i).locked = true ↔ L i)
    (hheld : L i → 0 < R i) (howned : D i → L i ∧ (t.buf i).valid = true)
    (hdata : (t.buf i).valid = true → ¬ D i → (t.buf i).data = V b)
    (hdisk : P b = 0 → t.disk b = V b) (hpres : 0 < P b → (t.buf i).valid = true) :
    Shared R L D P V t := by
  have hne : ∀ j c, Holds s j c → j ≠ i → c ≠ b := by
    rintro j c hj hji rfl
    exact hji (h.unique j i c hj hi)
  refine ⟨?_, ?_, ?_, ?_, ?_, ?_, ?_, ?_, ?_⟩
  · intro j k c hj hk
    exact h.unique j k c ((ht.holds j c).mp hj) ((ht.holds k c).mp hk)
  · intro j hj
    have hj' := (ht.mem j).mp hj
    obtain rfl | hji := eq_or_ne j i
    · rw [ht.dev, ht.log, ht.blockno, if_pos hi.2.1, hi.2.2]
      exact hcount
    · rw [ht.other j hji, ht.log, (hother j hji).1]
      have hc := h.counted j hj'
      split at hc
      · rename_i hd
        rw [if_pos hd, (hblock _ (hne j _ ⟨hj', hd, rfl⟩ hji)).1]
        exact hc
      · rename_i hd
        rw [if_neg hd]
        exact hc
  · intro j hr
    rw [ht.mem, ht.log]
    obtain rfl | hji := eq_or_ne j i
    · exact ⟨hi.1, ht.dev.trans hi.2.1⟩
    · rw [(hother j hji).1] at hr
      rw [ht.other j hji]
      exact h.named j hr
  · intro j hj
    obtain rfl | hji := eq_or_ne j i
    · exact hlock
    · rw [ht.other j hji, (hother j hji).2.1]
      exact h.locks j ((ht.mem j).mp hj)
  · intro j hl
    obtain rfl | hji := eq_or_ne j i
    · exact hheld hl
    · rw [(hother j hji).1]
      exact h.held j ((hother j hji).2.1.mp hl)
  · intro j hd
    obtain rfl | hji := eq_or_ne j i
    · exact howned hd
    · rw [ht.other j hji, (hother j hji).2.1]
      exact h.owned j ((hother j hji).2.2.mp hd)
  · intro j c hj hv hd
    have hj' := (ht.holds j c).mp hj
    obtain rfl | hji := eq_or_ne j i
    · obtain rfl : c = b := hj'.2.2.symm.trans hi.2.2
      exact hdata hv hd
    · rw [ht.other j hji] at hv ⊢
      rw [(hblock c (hne j c hj' hji)).2.1]
      exact h.data j c hj' hv (fun hdj => hd ((hother j hji).2.2.mpr hdj))
  · intro c hp
    obtain rfl | hcb := eq_or_ne c b
    · exact hdisk hp
    · obtain ⟨hpc, hvc, hdc⟩ := hblock c hcb
      rw [hdc, hvc]
      exact h.disk c (hpc ▸ hp)
  · intro c hp
    obtain rfl | hcb := eq_or_ne c b
    · exact ⟨i, (ht.holds i c).mpr hi, hpres hp⟩
    · rw [(hblock c hcb).1] at hp
      obtain ⟨j, hj, hv⟩ := h.present c hp
      have hji : j ≠ i := by
        rintro rfl
        exact hcb (hj.2.2.symm.trans hi.2.2)
      exact ⟨j, (ht.holds j c).mpr hj, by rw [ht.other j hji]; exact hv⟩

end

theorem touched_update (s : Kernel) (i : Nat) (B : Buf) (hd : B.dev = (s.buf i).dev)
    (hb : B.blockno = (s.buf i).blockno) :
    Touched s { s with buf := update s.buf i B } i :=
  ⟨fun _ => Iff.rfl, fun j hj => update_of_ne hj _ _, by simpa using hd, by simpa using hb, rfl⟩

theorem Shared.recycle (h : Shared refs lock dirty pin v s) (hm : i ∈ s.lru) (hr : (s.buf i).refcnt = 0)
    (hno : ∀ j, ¬ Holds s j b) (x : Block) (hrefs : ∀ j, R j = refs j + if j = i then 1 else 0)
    (ht : t = { s with buf := update s.buf i ⟨false, s.log.dev, b, (s.buf i).locked, 1, x⟩ }) :
    Shared R lock dirty pin v t ∧ Kept refs s t := by
  subst ht
  have hri : refs i = 0 := by
    have := h.counted i hm
    omega
  have hpin : pin b = 0 := h.pin_eq_zero (fun j hj => absurd hj (hno j))
  have hfree : ¬ lock i := fun hl => by
    have := h.held i hl
    omega
  have hold : ∀ {j c : Nat},
      Holds { s with buf := update s.buf i ⟨false, s.log.dev, b, (s.buf i).locked, 1, x⟩ } j c ↔
        (j = i ∧ i ∈ s.lru ∧ c = b) ∨ (j ≠ i ∧ Holds s j c) := holds_update rfl rfl
  refine ⟨⟨?_, ?_, ?_, ?_, ?_, ?_, ?_, h.disk, ?_⟩, ?_, ?_⟩
  · intro j k c hj hk
    rcases hold.mp hj with ⟨hji, _, hjc⟩ | ⟨hji, hj'⟩ <;>
      rcases hold.mp hk with ⟨hki, _, hkc⟩ | ⟨hki, hk'⟩
    · exact hji.trans hki.symm
    · exact absurd (hjc ▸ hk') (hno k)
    · exact absurd (hkc ▸ hj') (hno j)
    · exact h.unique j k c hj' hk'
  · intro j hj
    rw [hrefs]
    obtain rfl | hji := eq_or_ne j i
    · simp [hri, hpin]
    · simpa [hji] using h.counted j hj
  · intro j hj
    obtain rfl | hji := eq_or_ne j i
    · simpa using hm
    · rw [hrefs, if_neg hji] at hj
      simpa [hji] using h.named j hj
  · intro j hj
    obtain rfl | hji := eq_or_ne j i
    · simpa using h.locks j hj
    · simpa [hji] using h.locks j hj
  · intro j hl
    rw [hrefs]
    have := h.held j hl
    omega
  · intro j hd
    have hji : j ≠ i := by
      rintro rfl
      exact hfree (h.owned j hd).1
    simpa [hji] using h.owned j hd
  · intro j c hj hv hd
    rcases hold.mp hj with ⟨rfl, _, _⟩ | ⟨hji, hj'⟩
    · simp at hv
    · simp only [update_of_ne hji] at hv ⊢
      exact h.data j c hj' hv hd
  · intro c hp
    obtain ⟨j, hj, hv⟩ := h.present c hp
    have hji : j ≠ i := by
      rintro rfl
      have := h.pin_add_refs hj
      omega
    exact ⟨j, hold.mpr (.inr ⟨hji, hj⟩), by simpa [hji] using hv⟩
  · intro j c hj hjc
    refine hold.mpr (.inr ⟨?_, hjc⟩)
    rintro rfl
    omega
  · intro j hj hv
    have hji : j ≠ i := by
      rintro rfl
      omega
    simpa [hji] using hv

theorem bgetRef_shared (h : Shared refs lock dirty pin v s) (hrun : bgetRef s.log.dev b s = .ok i t)
    (hrefs : ∀ j, R j = refs j + if j = i then 1 else 0) :
    Shared R lock dirty pin v t ∧ Holds t i b ∧ Frame s t ∧ Kept refs s t := by
  simp only [bgetRef, bind_ok, get_ok] at hrun
  obtain ⟨_, _, ⟨rfl, rfl⟩, hrun⟩ := hrun
  cases hf : s.lru.find? (fun i => (s.buf i).dev == s.log.dev && (s.buf i).blockno == b) with
  | some k =>
    simp only [hf, setBuf, bind_ok, modify_ok, pure_ok] at hrun
    obtain ⟨_, _, rfl, rfl, rfl⟩ := hrun
    have hk : Holds s k b := bget_find hf
    have ht := touched_update s k { s.buf k with refcnt := (s.buf k).refcnt + 1 } rfl rfl
    have hc := h.pin_add_refs hk
    refine ⟨h.touch hk ht ?_ (fun _ _ => ⟨rfl, rfl, rfl⟩) ?_ ?_ ?_ ?_ ?_ (h.disk b) ?_,
      (ht.holds k b).mpr hk, ⟨rfl, rfl, rfl⟩, ht.kept (by simp)⟩
    · intro j hj
      simp [hrefs, hj]
    · simp only [hrefs, update_self, ↓reduceIte]
      omega
    · simpa using h.locks k hk.1
    · simp [hrefs]
    · simpa using h.owned k
    · simpa using h.data k b hk
    · intro hp
      obtain ⟨j, hj, hv⟩ := h.present b hp
      obtain rfl := h.unique j k b hj hk
      simpa using hv
  | none =>
    have hno : ∀ j, ¬ Holds s j b := by
      intro j hj
      have := List.find?_eq_none.mp hf j hj.1
      simp [hj.2.1, hj.2.2] at this
    cases hf' : s.lru.reverse.find? (fun i => (s.buf i).refcnt == 0) with
    | some k =>
      simp only [hf, hf', setBuf, bind_ok, modify_ok, pure_ok] at hrun
      obtain ⟨_, _, rfl, rfl, rfl⟩ := hrun
      have hm : k ∈ s.lru := List.mem_reverse.mp (List.mem_of_find?_eq_some hf')
      have hr : (s.buf k).refcnt = 0 := by simpa using List.find?_some hf'
      obtain ⟨hs, hkept⟩ := h.recycle hm hr hno (s.buf k).data hrefs rfl
      exact ⟨hs, by simpa [Holds] using hm, ⟨rfl, rfl, rfl⟩, hkept⟩
    | none => simp only [hf, hf', throw_ok] at hrun

theorem acquiresleep_ok : acquiresleep i s = .ok x t ↔ (s.buf i).locked = false ∧
    { s with buf := update s.buf i { s.buf i with locked := true } } = t := by
  simp only [acquiresleep, bind_ok, get_ok]
  constructor
  · rintro ⟨_, _, ⟨rfl, rfl⟩, h⟩
    split at h
    · simp only [throw_ok] at h
    · rename_i hl
      exact ⟨by simpa using hl, modify_ok.mp h⟩
  · rintro ⟨hl, rfl⟩
    exact ⟨s, s, ⟨rfl, rfl⟩, by simp [hl, setBuf, modify_ok]⟩

section

variable (h : Shared refs lock dirty pin v s)
include h

theorem acquiresleep_shared
    (hrun : acquiresleep i s = .ok x t) (hr : 0 < refs i) (hlock : ∀ j, L j ↔ lock j ∨ j = i) :
    ¬ lock i ∧ Shared refs L dirty pin v t ∧ Frame s t ∧ Kept refs s t := by
  obtain ⟨hl, rfl⟩ := acquiresleep_ok.mp hrun
  have hi := h.holds_of_refs hr
  have ht := touched_update s i { s.buf i with locked := true } rfl rfl
  refine ⟨fun hli => by simp [(h.locks i hi.1).mpr hli] at hl, ?_, ⟨rfl, rfl, rfl⟩, ht.kept (by simp)⟩
  refine h.touch hi ht ?_ (fun _ _ => ⟨rfl, rfl, rfl⟩) ?_ ?_ (fun _ => hr) ?_ ?_ (h.disk _) ?_
  · intro j hj
    simp [hlock, hj]
  · simpa using h.pin_add_refs hi
  · simp [hlock]
  · intro hd
    simpa [hlock] using (h.owned i hd).2
  · simpa using h.data i _ hi
  · intro hp
    obtain ⟨j, hj, hv⟩ := h.present _ hp
    obtain rfl := h.unique j i _ hj hi
    simpa using hv

theorem fill_shared (hrun : fill i s = .ok x t) (hr : 0 < refs i) :
    Shared refs lock dirty pin v t ∧ (t.buf i).valid = true ∧ Frame s t ∧ Kept refs s t := by
  simp only [fill, bind_ok, get_ok] at hrun
  obtain ⟨_, _, ⟨rfl, rfl⟩, hrun⟩ := hrun
  split at hrun
  · rename_i hv
    obtain ⟨-, rfl⟩ := pure_ok.mp hrun
    exact ⟨h, hv, Frame.refl s, fun _ _ _ hj => hj, fun _ _ hj => hj⟩
  · rename_i hv
    have hv : (s.buf i).valid = false := by simpa using hv
    simp only [virtioDiskRw, setBuf, bind_ok, get_ok, modify_ok, Bool.false_eq_true, ↓reduceIte] at hrun
    obtain ⟨_, _, ⟨_, _, ⟨rfl, rfl⟩, rfl⟩, rfl⟩ := hrun
    simp only [update_self, update_idem]
    have hi := h.holds_of_refs hr
    have hp : pin (s.buf i).blockno = 0 :=
      h.pin_eq_zero (fun j hj => by rw [h.unique j i _ hj hi]; exact hv)
    have ht := touched_update s i
      { s.buf i with data := s.disk (s.buf i).blockno, valid := true } rfl rfl
    refine ⟨h.touch hi ht (fun _ _ => ⟨rfl, Iff.rfl, Iff.rfl⟩) (fun _ _ => ⟨rfl, rfl, rfl⟩) ?_ ?_
      (h.held i) ?_ ?_ (h.disk _) ?_, by simp, ⟨rfl, rfl, rfl⟩, ht.kept (by simp)⟩
    · simpa using h.pin_add_refs hi
    · simpa using h.locks i hi.1
    · intro hd
      simpa using (h.owned i hd).1
    · exact fun _ _ => by simpa using h.disk _ hp
    · simp

theorem Shared.modify (hl : lock i)
    (hv : (s.buf i).valid = true) (x : Block) (hdirty : ∀ j, D j ↔ dirty j ∨ j = i)
    (ht : t = { s with buf := update s.buf i { s.buf i with data := x } }) :
    Shared refs lock D pin v t ∧ Kept refs s t := by
  subst ht
  have hi := h.holds_of_refs (h.held i hl)
  have ht := touched_update s i { s.buf i with data := x } rfl rfl
  refine ⟨h.touch hi ht ?_ (fun _ _ => ⟨rfl, rfl, rfl⟩) ?_ ?_ (h.held i) ?_ ?_ (h.disk _) ?_,
    ht.kept (by simp)⟩
  · intro j hj
    simp [hdirty, hj]
  · simpa using h.pin_add_refs hi
  · simpa using h.locks i hi.1
  · intro _
    simpa [hl] using hv
  · simp [hdirty]
  · intro _
    simpa using hv

theorem releasesleep_shared (hrun : releasesleep i s = .ok x t) (hl : lock i) (hd : ¬ dirty i)
    (hlock : ∀ j, L j ↔ lock j ∧ j ≠ i) :
    Shared refs L dirty pin v t ∧ Frame s t ∧ Kept refs s t := by
  obtain rfl := modify_ok.mp hrun
  have hi := h.holds_of_refs (h.held i hl)
  have ht := touched_update s i { s.buf i with locked := false } rfl rfl
  refine ⟨h.touch hi ht ?_ (fun _ _ => ⟨rfl, rfl, rfl⟩) ?_ ?_ ?_ ?_ ?_ (h.disk _) ?_,
    ⟨rfl, rfl, rfl⟩, ht.kept (by simp)⟩
  · intro j hj
    simp [hlock, hj]
  · simpa using h.pin_add_refs hi
  · simp [hlock]
  · simp [hlock]
  · exact fun hdi => absurd hdi hd
  · simpa using h.data i _ hi
  · intro hp
    obtain ⟨j, hj, hv⟩ := h.present _ hp
    obtain rfl := h.unique j i _ hj hi
    simpa using hv

end

theorem brelseRef_touched (hrun : brelseRef i s = .ok x t) (hm : i ∈ s.lru) :
    Touched s t i ∧ Frame s t ∧
      t.buf i = { s.buf i with refcnt := decr (s.buf i).refcnt } := by
  simp only [brelseRef, setBuf, bind_ok, get_ok, modify_ok] at hrun
  obtain ⟨_, _, ⟨rfl, rfl⟩, _, _, rfl, hrun⟩ := hrun
  have ht := touched_update s i { s.buf i with refcnt := decr (s.buf i).refcnt } rfl rfl
  split at hrun
  · obtain rfl := modify_ok.mp hrun
    refine ⟨⟨fun j => ?_, ht.other, ht.dev, ht.blockno, rfl⟩, ⟨rfl, rfl, rfl⟩, by simp⟩
    exact (List.perm_cons_erase hm).symm.mem_iff
  · obtain ⟨-, rfl⟩ := pure_ok.mp hrun
    exact ⟨ht, ⟨rfl, rfl, rfl⟩, by simp⟩

theorem brelseRef_shared (h : Shared refs lock dirty pin v s) (hrun : brelseRef i s = .ok x t)
    (hr : 0 < refs i) (hl : lock i → 0 < R i) (hrefs : ∀ j, refs j = R j + if j = i then 1 else 0) :
    Shared R lock dirty pin v t ∧ Frame s t ∧ Kept refs s t := by
  have hi := h.holds_of_refs hr
  obtain ⟨ht, hf, hB⟩ := brelseRef_touched hrun hi.1
  have hc := h.pin_add_refs hi
  have hdec := decr_pos (r := (s.buf i).refcnt) (by omega)
  have hri : refs i = R i + 1 := by simp [hrefs]
  refine ⟨h.touch hi ht ?_ (fun c _ => ⟨rfl, rfl, by rw [hf.1]⟩) ?_ ?_ hl ?_ ?_ ?_ ?_, hf,
    ht.kept (by simp [hB])⟩
  · intro j hj
    simp [hrefs, hj]
  · rw [hB]
    show _ ≤ decr (s.buf i).refcnt
    omega
  · simpa [hB] using h.locks i hi.1
  · simpa [hB] using h.owned i
  · simpa [hB] using h.data i _ hi
  · rw [hf.1]
    exact h.disk _
  · intro hp
    obtain ⟨j, hj, hv⟩ := h.present _ hp
    obtain rfl := h.unique j i _ hj hi
    simpa [hB] using hv

theorem bwrite_ok (h : bwrite i s = .ok x t) :
    { s with disk := update s.disk (s.buf i).blockno (s.buf i).data, power := s.power - 1 } = t := by
  simp only [bwrite, virtioDiskRw, bind_ok, get_ok] at h
  obtain ⟨_, _, ⟨rfl, rfl⟩, h⟩ := h
  split at h
  · simp only [bind_ok, get_ok, ↓reduceIte] at h
    obtain ⟨_, _, ⟨rfl, rfl⟩, h⟩ := h
    split at h
    · simp only [throw_ok] at h
    · exact set_ok.mp h
  · simp only [throw_ok] at h

theorem Shared.write (h : Shared refs lock dirty pin v s) (hl : lock i) (hd : ¬ dirty i)
    (hv : (s.buf i).valid = true) (hb : (s.buf i).blockno = b) (x : Block) (power : Nat)
    (hview : ∀ c, V c = update v b x c)
    (ht : t = { s with
      disk := update s.disk b x
      power := power
      buf := update s.buf i { s.buf i with data := x } }) :
    Shared refs lock dirty pin V t ∧ Kept refs s t := by
  subst ht hb
  have hi := h.holds_of_refs (h.held i hl)
  have ht' := touched_update s i { s.buf i with data := x } rfl rfl
  have ht : Touched s { s with
      disk := update s.disk (s.buf i).blockno x
      power := power
      buf := update s.buf i { s.buf i with data := x } } i :=
    ⟨ht'.mem, ht'.other, ht'.dev, ht'.blockno, rfl⟩
  refine ⟨h.touch hi ht (fun _ _ => ⟨rfl, Iff.rfl, Iff.rfl⟩) ?_ ?_ ?_ (h.held i)
    (fun hdi => absurd hdi hd) ?_ ?_ ?_, ht.kept (by simp)⟩
  · intro c hc
    simp [hview, hc]
  · simpa using h.pin_add_refs hi
  · simpa using h.locks i hi.1
  · simp [hview]
  · simp [hview]
  · intro _
    simpa using hv

theorem bunpin_ok : bunpin i s = .ok x t ↔
    { s with buf := update s.buf i { s.buf i with refcnt := decr (s.buf i).refcnt } } = t := by
  simp only [bunpin, setBuf, bind_ok, get_ok, modify_ok]
  constructor
  · rintro ⟨_, _, ⟨rfl, rfl⟩, h⟩
    exact h
  · rintro rfl
    exact ⟨s, s, ⟨rfl, rfl⟩, rfl⟩

section

variable (h : Shared refs lock dirty pin v s)
include h

theorem bunpin_shared (hrun : bunpin i s = .ok x t) (hi : Holds s i b) (hp : pin b = 1)
    (hd : s.disk b = v b) (hpin : ∀ c, P c = update pin b 0 c) :
    Shared refs lock dirty P v t ∧ Frame s t ∧ Kept refs s t := by
  obtain rfl := bunpin_ok.mp hrun
  have hc := h.pin_add_refs hi
  have hdec := decr_pos (r := (s.buf i).refcnt) (by omega)
  have ht := touched_update s i { s.buf i with refcnt := decr (s.buf i).refcnt } rfl rfl
  refine ⟨h.touch hi ht (fun _ _ => ⟨rfl, Iff.rfl, Iff.rfl⟩) ?_ ?_ ?_ (h.held i) ?_ ?_ (fun _ => hd) ?_,
    ⟨rfl, rfl, rfl⟩, ht.kept (by simp)⟩
  · intro c hc
    simp [hpin, hc]
  · simp only [hpin, update_self]
    omega
  · simpa using h.locks i hi.1
  · simpa using h.owned i
  · simpa using h.data i b hi
  · simp [hpin]

theorem Shared.logged (hl : lock i) (hv : (s.buf i).valid = true) (hb : (s.buf i).blockno = b) (r : Nat)
    (hr : (s.buf i).refcnt + 1 ≤ r + pin b) (hle : pin b ≤ 1) (hdirty : ∀ j, D j ↔ dirty j ∧ j ≠ i)
    (hpin : ∀ c, P c = update pin b 1 c) (hview : ∀ c, V c = update v b (s.buf i).data c)
    (hdev : t.log.dev = s.log.dev) (hdisk : t.disk = s.disk) (hlru : t.lru = s.lru)
    (hbuf : t.buf = update s.buf i { s.buf i with refcnt := r }) :
    Shared refs lock D P V t ∧ Kept refs s t := by
  subst hb
  have hi := h.holds_of_refs (h.held i hl)
  have ht : Touched s t i :=
    ⟨fun _ => by rw [hlru], fun j hj => by rw [hbuf, update_of_ne hj], by simp [hbuf],
      by simp [hbuf], hdev⟩
  have hc := h.pin_add_refs hi
  refine ⟨h.touch hi ht ?_ ?_ ?_ ?_ (h.held i) ?_ ?_ ?_ ?_, ht.kept (by simp [hbuf])⟩
  · intro j hj
    simp [hdirty, hj]
  · intro c hc
    simp [hpin, hview, hc, hdisk]
  · simp only [hpin, hbuf, update_self]
    omega
  · simpa [hbuf] using h.locks i hi.1
  · intro hdi
    simp [hdirty] at hdi
  · simp [hview, hbuf]
  · simp [hpin]
  · intro _
    simpa [hbuf] using hv

theorem Shared.setLog (lg : Log) (hd : lg.dev = s.log.dev) :
    Shared refs lock dirty pin v { s with log := lg } ∧ Kept refs s { s with log := lg } := by
  have hold : ∀ i b, Holds { s with log := lg } i b ↔ Holds s i b := by
    intro i b
    simp only [Holds, hd]
  refine ⟨⟨?_, ?_, ?_, h.locks, h.held, h.owned, ?_, h.disk, ?_⟩, ?_, fun _ _ hv => hv⟩
  · intro i j b hi hj
    exact h.unique i j b ((hold i b).mp hi) ((hold j b).mp hj)
  · intro i hi
    simpa only [hd] using h.counted i hi
  · intro i hi
    simpa only [hd] using h.named i hi
  · intro i b hi
    exact h.data i b ((hold i b).mp hi)
  · intro b hb
    obtain ⟨i, hi, hv⟩ := h.present b hb
    exact ⟨i, (hold i b).mpr hi, hv⟩
  · intro j b _ hj
    exact (hold j b).mpr hj

theorem Shared.congr (hrefs : ∀ j, R j = refs j) (hlock : ∀ j, L j ↔ lock j) (hdirty : ∀ j, D j ↔ dirty j)
    (hpin : ∀ c, P c = pin c) (hview : ∀ c, V c = v c) : Shared R L D P V s := by
  obtain rfl : R = refs := funext hrefs
  obtain rfl : L = lock := funext (fun j => propext (hlock j))
  obtain rfl : D = dirty := funext (fun j => propext (hdirty j))
  obtain rfl : P = pin := funext hpin
  obtain rfl : V = v := funext hview
  exact h

end

end Xv6.BufferCache
