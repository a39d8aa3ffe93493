import Xv6.LogRecovery
import Xv6.LogSystem
import Mathlib.Data.Finset.Card

namespace Xv6.LogCommit

open Xv6.Lib Xv6.BufferCache Function

structure Accounted (r : Nat → Nat) (held : List (Nat × Nat)) (s : Kernel) : Prop where
  unique : ∀ i j b, Holds s i b → Holds s j b → i = j
  counts : ∀ i ∈ s.lru, (s.buf i).refcnt = r i + if i ∈ held.map Prod.fst then 1 else 0
  locks : ∀ i ∈ s.lru, (s.buf i).locked = decide (i ∈ held.map Prod.fst)
  own : ∀ x ∈ held, Holds s x.1 x.2
  nodup : (held.map Prod.fst).Nodup

/-- `w` block writes later: the same buffers are in the list, and those still referred to hold the
same blocks. -/
structure After (r : Nat → Nat) (held : List (Nat × Nat)) (w : Nat) (s t : Kernel) : Prop where
  accounted : Accounted r held t
  log : t.log = s.log
  mem : ∀ i, i ∈ t.lru ↔ i ∈ s.lru
  holds : ∀ i b, 0 < r i → Holds s i b → Holds t i b
  power : t.power + w = s.power

variable {r r' : Nat → Nat} {held held' : List (Nat × Nat)} {w w' a b i i₀ j : Nat} {s t u : Kernel}

theorem After.trans (h : After r held w s t) (h' : After r' held' w' t u) (hr : ∀ i, r' i ≤ r i) :
    After r' held' (w + w') s u where
  accounted := h'.accounted
  log := h'.log.trans h.log
  mem i := (h'.mem i).trans (h.mem i)
  holds i b hi hb := h'.holds i b hi (h.holds i b (lt_of_lt_of_le hi (hr i)) hb)
  power := by
    have := h.power
    have := h'.power
    omega

theorem After.next (h : After r held w s t) (h' : After r held' w' t u) : After r held' (w + w') s u :=
  h.trans h' (fun _ => le_rfl)

section

variable (h : Accounted r held s)
include h

theorem After.refl : After r held 0 s s :=
  ⟨h, rfl, fun _ => Iff.rfl, fun _ _ _ hb => hb, rfl⟩

theorem Accounted.recount (hlog : t.log = s.log) (hmem : ∀ j, j ∈ t.lru ↔ j ∈ s.lru)
    (hname : ∀ j, (t.buf j).dev = (s.buf j).dev ∧ (t.buf j).blockno = (s.buf j).blockno)
    (hcount : ∀ j ∈ s.lru, (t.buf j).refcnt = r' j + if j ∈ held'.map Prod.fst then 1 else 0)
    (hlock : ∀ j ∈ s.lru, (t.buf j).locked = decide (j ∈ held'.map Prod.fst)) (hsub : held'.Sublist held)
    (hpow : t.power + w = s.power) : After r' held' w s t := by
  have hold : ∀ j b, Holds t j b ↔ Holds s j b := by
    intro j b
    simp only [Holds, hmem j, hname j, hlog]
  refine ⟨⟨?_, ?_, ?_, ?_, ?_⟩, hlog, hmem, fun i b _ hb => (hold i b).mpr hb, hpow⟩
  · intro i j b hi hj
    exact h.unique i j b ((hold i b).mp hi) ((hold j b).mp hj)
  · intro i hi
    exact hcount i ((hmem i).mp hi)
  · intro i hi
    exact hlock i ((hmem i).mp hi)
  · intro x hx
    exact (hold x.1 x.2).mpr (h.own x (hsub.subset hx))
  · exact h.nodup.sublist (hsub.map Prod.fst)

theorem Accounted.fetch {B : Buf} (hi : i ∈ s.lru) (hfree : i ∉ held.map Prod.fst) (hd : B.dev = s.log.dev)
    (hb : B.blockno = b) (hl : B.locked = true) (hc : B.refcnt = r i + 1)
    (horigin : Holds s i b ∨ ((∀ j, ¬ Holds s j b) ∧ r i = 0)) :
    After r ((i, b) :: held) 0 s { s with buf := update s.buf i B } := by
  have hold : ∀ {j c : Nat}, Holds { s with buf := update s.buf i B } j c ↔
      (j = i ∧ i ∈ s.lru ∧ c = b) ∨ (j ≠ i ∧ Holds s j c) := holds_update hd hb
  have hsame : ∀ j, Holds s j b → j = i := by
    intro j hj
    obtain hib | ⟨hno, _⟩ := horigin
    · exact h.unique j i b hj hib
    · exact absurd hj (hno j)
  refine ⟨⟨?_, ?_, ?_, ?_, List.nodup_cons.mpr ⟨hfree, h.nodup⟩⟩, rfl, fun _ => Iff.rfl, ?_, rfl⟩
  · intro j k c hj hk
    obtain ⟨hji, _, hjb⟩ | ⟨hji, hj'⟩ := hold.mp hj <;> obtain ⟨hki, _, hkb⟩ | ⟨hki, hk'⟩ := hold.mp hk
    · exact hji.trans hki.symm
    · exact absurd (hsame k (hjb ▸ hk')) hki
    · exact absurd (hsame j (hkb ▸ hj')) hji
    · exact h.unique j k c hj' hk'
  · intro j hj
    obtain rfl | hji := eq_or_ne j i
    · simp [hc]
    · simpa only [update_of_ne hji, List.map_cons, List.mem_cons, hji, false_or] using h.counts j hj
  · intro j hj
    obtain rfl | hji := eq_or_ne j i
    · simp [hl]
    · simpa only [update_of_ne hji, List.map_cons, List.mem_cons, hji, false_or] using h.locks j hj
  · intro x hx
    obtain rfl | hx := List.mem_cons.mp hx
    · exact hold.mpr (.inl ⟨rfl, hi, rfl⟩)
    · have hne : x.1 ≠ i := fun he => hfree (he ▸ List.mem_map_of_mem hx)
      exact hold.mpr (.inr ⟨hne, h.own x hx⟩)
  · intro j c hj hjc
    obtain rfl | hji := eq_or_ne j i
    · obtain hib | ⟨_, h0⟩ := horigin
      · exact hold.mpr (.inl ⟨rfl, hi, hjc.2.2.symm.trans hib.2.2⟩)
      · omega
    · exact hold.mpr (.inr ⟨hji, hjc⟩)

theorem Accounted.not_held (hi : Holds s i b) (hb : b ∉ held.map Prod.snd) : i ∉ held.map Prod.fst := by
  intro hm
  obtain ⟨x, hx, rfl⟩ := List.mem_map.mp hm
  exact hb (List.mem_map.mpr ⟨x, hx, (h.own x hx).2.2.symm.trans hi.2.2⟩)

theorem bread_completes (hb : b ∉ held.map Prod.snd)
    (hroom : (∃ i, Holds s i b) ∨ ∃ i ∈ s.lru, r i = 0 ∧ i ∉ held.map Prod.fst) :
    Completes (bread s.log.dev b) s (fun i t => After r ((i, b) :: held) 0 s t) := by
  apply bread_spec
  · intro i hm hd hbn
    have hi : Holds s i b := ⟨hm, hd, hbn⟩
    have hfree := h.not_held hi hb
    have hc := h.counts i hm
    refine ⟨by rw [h.locks i hm, decide_eq_false hfree], ?_⟩
    rw [if_neg hfree] at hc
    exact h.fetch hm hfree hd hbn rfl (congrArg (· + 1) hc) (.inl hi)
  · intro hno i hm hr
    have hc := h.counts i hm
    have hfree : i ∉ held.map Prod.fst := by
      intro hin
      rw [if_pos hin] at hc
      omega
    rw [if_neg hfree] at hc
    refine ⟨by rw [h.locks i hm, decide_eq_false hfree], ?_⟩
    exact h.fetch hm hfree rfl rfl rfl (show 1 = r i + 1 by omega)
      (.inr ⟨fun j hj => hno j hj.1 hj.2, by omega⟩)
  · intro hno hfull
    obtain ⟨i, hi⟩ | ⟨i, hm, hr, hfree⟩ := hroom
    · exact hno i hi.1 hi.2
    · have hc := h.counts i hm
      rw [if_neg hfree] at hc
      exact hfull i hm (by omega)

theorem setData_completes (i : Nat) (x : Block) :
    Completes (setData i x) s (fun _ t => After r held 0 s t) := by
  apply Ensures.modify
  have hkeep : ∀ j, ((update s.buf i { s.buf i with data := x }) j).dev = (s.buf j).dev ∧
      ((update s.buf i { s.buf i with data := x }) j).blockno = (s.buf j).blockno ∧
      ((update s.buf i { s.buf i with data := x }) j).refcnt = (s.buf j).refcnt ∧
      ((update s.buf i { s.buf i with data := x }) j).locked = (s.buf j).locked := by
    intro j
    obtain rfl | hj := eq_or_ne j i
    · simp
    · simp [hj]
  refine h.recount rfl (fun _ => Iff.rfl) ?_ ?_ ?_ (List.Sublist.refl held) rfl
  · intro j
    exact ⟨(hkeep j).1, (hkeep j).2.1⟩
  · intro j hj
    exact (hkeep j).2.2.1.trans (h.counts j hj)
  · intro j hj
    exact (hkeep j).2.2.2.trans (h.locks j hj)

theorem bwrite_completes (hm : (i, b) ∈ held) (hp : 0 < s.power) :
    Completes (bwrite i) s (fun _ t => After r held 1 s t) := by
  have hl : (s.buf i).locked = true := by
    rw [h.locks i (h.own _ hm).1]
    exact decide_eq_true (List.mem_map_of_mem hm)
  unfold bwrite virtioDiskRw
  apply Ensures.bind_get
  rw [if_pos hl]
  apply Ensures.bind_get
  rw [if_pos rfl, if_neg (by omega)]
  apply Ensures.set
  exact h.recount rfl (fun _ => Iff.rfl) (fun _ => ⟨rfl, rfl⟩) h.counts h.locks (List.Sublist.refl held)
    (Nat.sub_add_cancel hp)

theorem Accounted.mem_erase (hm : (i, b) ∈ held) (j : Nat) :
    j ∈ (held.erase (i, b)).map Prod.fst ↔ j ∈ held.map Prod.fst ∧ j ≠ i := by
  have hnd : held.Nodup := h.nodup.of_map
  constructor
  · intro hj
    obtain ⟨x, hx, rfl⟩ := List.mem_map.mp hj
    obtain ⟨hne, hx'⟩ := hnd.mem_erase_iff.mp hx
    exact ⟨List.mem_map_of_mem hx', fun he => hne (List.inj_on_of_nodup_map h.nodup hx' hm he)⟩
  · rintro ⟨hj, hji⟩
    obtain ⟨x, hx, rfl⟩ := List.mem_map.mp hj
    have hne : x ≠ (i, b) := fun he => hji (congrArg Prod.fst he)
    exact List.mem_map_of_mem (hnd.mem_erase_iff.mpr ⟨hne, hx⟩)

theorem Accounted.held_count (hm : (i, b) ∈ held) :
    (s.buf i).refcnt = r i + 1 ∧ (s.buf i).locked = true := by
  have hin : i ∈ held.map Prod.fst := List.mem_map_of_mem hm
  have hc := h.counts i (h.own _ hm).1
  rw [if_pos hin] at hc
  exact ⟨hc, (h.locks i (h.own _ hm).1).trans (decide_eq_true hin)⟩

theorem brelse_completes (hm : (i, b) ∈ held) :
    Completes (brelse i) s (fun _ t => After r (held.erase (i, b)) 0 s t) := by
  obtain ⟨hc, hl⟩ := h.held_count hm
  have hout : i ∉ (held.erase (i, b)).map Prod.fst := fun hin => ((h.mem_erase hm i).mp hin).2 rfl
  have hdecr := decr_pos (r := (s.buf i).refcnt) (by omega)
  refine brelse_spec (h.own _ hm).1 hl (fun t ht hmem hframe => ?_)
  refine h.recount hframe.2.2 hmem ?_ ?_ ?_ List.erase_sublist hframe.2.1
  · intro j
    obtain rfl | hj := eq_or_ne j i
    · simp [ht]
    · simp [ht, hj]
  · intro j hj
    obtain rfl | hji := eq_or_ne j i
    · rw [ht, update_self, if_neg hout]
      show decr (s.buf j).refcnt = r j + 0
      omega
    · simpa only [ht, update_of_ne hji, h.mem_erase hm, ne_eq, hji, not_false_eq_true, and_true]
        using h.counts j hj
  · intro j hj
    obtain rfl | hji := eq_or_ne j i
    · rw [ht, update_self, decide_eq_false hout]
    · simpa only [ht, update_of_ne hji, h.mem_erase hm, ne_eq, hji, not_false_eq_true, and_true]
        using h.locks j hj

theorem bunpin_completes (hm : (i, b) ∈ held) (hr : 0 < r i) :
    Completes (bunpin i) s (fun _ t => After (update r i (r i - 1)) held 0 s t) := by
  obtain ⟨hc, hl⟩ := h.held_count hm
  have hdecr := decr_pos (r := (s.buf i).refcnt) (by omega)
  unfold bunpin
  apply Ensures.bind_get
  apply Ensures.modify
  refine h.recount rfl (fun _ => Iff.rfl) ?_ ?_ ?_ (List.Sublist.refl held) rfl
  · intro j
    obtain rfl | hj := eq_or_ne j i
    · simp
    · simp [hj]
  · intro j hj
    obtain rfl | hji := eq_or_ne j i
    · simp only [update_self, if_pos (List.mem_map_of_mem hm)]
      omega
    · simpa only [update_of_ne hji] using h.counts j hj
  · intro j hj
    obtain rfl | hji := eq_or_ne j i
    · simpa only [update_self] using h.locks j hj
    · simpa only [update_of_ne hji] using h.locks j hj

end

theorem bread_two_completes (h : Accounted r [] s) (hfree : i₀ ∈ s.lru ∧ r i₀ = 0) (hj : Holds s j b)
    (hr : 0 < r j) (hab : b ≠ a) {f : Nat → Nat → K PUnit}
    {Q : PUnit → Kernel → Prop}
    (hf : ∀ i t, After r [(j, b), (i, a)] 0 s t → Completes (f i j) t Q) :
    Completes (do let i ← bread s.log.dev a; let j ← bread s.log.dev b; f i j) s Q := by
  refine (bread_completes h (by simp) (.inr ⟨i₀, hfree.1, hfree.2, by simp⟩)).seq ?_
  intro i t ht
  apply Ensures.bind
  rw [← ht.log]
  have hj' := ht.holds j b hr hj
  refine (bread_completes ht.accounted (by simpa using hab) (.inl ⟨j, hj'⟩)).post ?_
  intro j' u hu
  have hju : Holds u j b := hu.holds j b hr hj'
  have hown : Holds u j' b := hu.accounted.own (j', b) (by simp)
  obtain rfl : j' = j := hu.accounted.unique j' j b hown hju
  exact hf i u (ht.next hu)

theorem writeLog_step (h : Accounted r [] s) (hfree : i₀ ∈ s.lru ∧ r i₀ = 0)
    (hj : Holds s j b) (hr : 0 < r j) (hab : b ≠ a) (hp : 0 < s.power) :
    Completes (do
      let toBuf ← bread s.log.dev a
      let fromBuf ← bread s.log.dev b
      let t ← get
      setData toBuf (t.buf fromBuf).data
      bwrite toBuf
      brelse fromBuf
      brelse toBuf) s (fun _ t => After r [] 1 s t) := by
  refine bread_two_completes h hfree hj hr hab ?_
  intro i t ht
  apply Ensures.bind_get
  refine (setData_completes ht.accounted i _).seq ?_
  intro _ u hu
  have hsu := ht.next hu
  have hpow := hsu.power
  refine (bwrite_completes hu.accounted (i := i) (b := a) (by simp) (by omega)).seq ?_
  intro _ x hx
  refine (brelse_completes hx.accounted (i := j) (b := b) (by simp)).seq ?_
  intro _ y hy
  have herase : ([(j, b), (i, a)] : List (Nat × Nat)).erase (j, b) = [(i, a)] := by simp
  rw [herase] at hy
  refine (brelse_completes hy.accounted (i := i) (b := a) (by simp)).post ?_
  intro _ z hz
  have hz : After r [] 0 y z := by simpa using hz
  exact ((hsu.next hx).next hy).next hz

theorem installTrans_step (h : Accounted r [] s) (hfree : i₀ ∈ s.lru ∧ r i₀ = 0)
    (hj : Holds s j b) (hr : 0 < r j) (hab : b ≠ a) (hp : 0 < s.power) :
    Completes (do
      let lbuf ← bread s.log.dev a
      let dbuf ← bread s.log.dev b
      let t ← get
      setData dbuf (t.buf lbuf).data
      bwrite dbuf
      (if false then pure ⟨⟩ else bunpin dbuf)
      brelse lbuf
      brelse dbuf) s (fun _ t => After (update r j (r j - 1)) [] 1 s t) := by
  refine bread_two_completes h hfree hj hr hab ?_
  intro i t ht
  apply Ensures.bind_get
  refine (setData_completes ht.accounted j _).seq ?_
  intro _ u hu
  have hsu := ht.next hu
  have hpow := hsu.power
  refine (bwrite_completes hu.accounted (i := j) (b := b) (by simp) (by omega)).seq ?_
  intro _ x hx
  refine (bunpin_completes hx.accounted (i := j) (b := b) (by simp) hr).seq ?_
  intro _ y hy
  have hle : ∀ k, update r j (r j - 1) k ≤ r k := by
    intro k
    obtain rfl | hk := eq_or_ne k j
    · simp
    · simp [hk]
  refine (brelse_completes hy.accounted (i := i) (b := a) (by simp)).seq ?_
  intro _ z hz
  have hne : (j, b) ≠ (i, a) := fun he => hab (congrArg Prod.snd he)
  have herase : ([(j, b), (i, a)] : List (Nat × Nat)).erase (i, a) = [(j, b)] := by
    rw [List.erase_cons_tail (by simpa using hne)]
    simp
  rw [herase] at hz
  refine (brelse_completes hz.accounted (i := j) (b := b) (by simp)).post ?_
  intro _ w hw
  have hw : After (update r j (r j - 1)) [] 0 z w := by simpa using hw
  exact (((hsu.next hx).trans hy hle).next hz).next hw

theorem writeHead_completes (h : Accounted r [] s) (hfree : i₀ ∈ s.lru ∧ r i₀ = 0)
    (hp : 0 < s.power) : Completes writeHead s (fun _ t => After r [] 1 s t) := by
  unfold writeHead
  apply Ensures.bind_get
  refine (bread_completes h (by simp) (.inr ⟨i₀, hfree.1, hfree.2, by simp⟩)).seq ?_
  intro i t ht
  apply Ensures.bind_get
  refine (setData_completes ht.accounted i _).seq ?_
  intro _ u hu
  have hsu := ht.next hu
  have hpow := hsu.power
  refine (bwrite_completes hu.accounted (i := i) (b := s.log.start) (by simp) (by omega)).seq ?_
  intro _ x hx
  refine (brelse_completes hx.accounted (i := i) (b := s.log.start) (by simp)).post ?_
  intro _ y hy
  have hy : After r [] 0 x y := by simpa using hy
  exact (hsu.next hx).next hy

theorem Accounted.clearHead (h : Accounted r held s) :
    Accounted r held { s with log := { s.log with lh := { s.log.lh with n := 0 } } } :=
  ⟨h.unique, h.counts, h.locks, h.own, h.nodup⟩

def unpins (slot : Nat → Nat) (k i : Nat) : Nat := (List.range k).countP (fun m => slot m = i)

section Loops

variable {slot block : Nat → Nat} {n k i : Nat}

theorem unpins_succ : unpins slot (k + 1) i = unpins slot k i + if slot k = i then 1 else 0 := by
  simp [unpins, List.range_succ, List.countP_append, List.countP_singleton]

theorem unpins_eq_zero (h : ∀ m, m < k → slot m ≠ i) : unpins slot k i = 0 := by
  simpa [unpins, List.countP_eq_zero] using h

theorem unpins_eq_one (hinj : ∀ a b, a < n → b < n → slot a = slot b → a = b) (hk : k < n) :
    unpins slot n (slot k) = 1 := by
  induction n with
  | zero => omega
  | succ n ih =>
    rw [unpins_succ]
    obtain rfl | hkn := eq_or_ne k n
    · rw [unpins_eq_zero, if_pos rfl]
      intro m hm he
      have := hinj m k (by omega) (by omega) he
      omega
    · have hne : slot n ≠ slot k := fun he => hkn (hinj n k (by omega) hk he).symm
      rw [if_neg hne, ih (fun a b ha hb => hinj a b (by omega) (by omega)) (by omega)]

theorem unpins_update :
    update (fun i => r i - unpins slot k i) (slot k) (r (slot k) - unpins slot k (slot k) - 1) =
      fun i => r i - unpins slot (k + 1) i := by
  funext i
  rw [unpins_succ]
  by_cases hi : i = slot k
  · subst hi
    rw [update_self, if_pos rfl]
    omega
  · rw [update_of_ne hi, if_neg (Ne.symm hi), add_zero]

/-- The first `n` blocks of the header are outside the log and pinned in the buffers `slot`, and
buffer `i` is free. -/
structure Pinned (r slot : Nat → Nat) (n i : Nat) (s : Kernel) : Prop where
  free : i ∈ s.lru ∧ r i = 0
  outside : ∀ m, m < n → ¬ InLog s.log.start (s.log.lh.block m)
  fits : n ≤ logBlocks
  holds : ∀ m, m < n → Holds s (slot m) (s.log.lh.block m)
  pos : ∀ m, m < n → 0 < r (slot m)
  apart : ∀ a b, a < n → b < n → slot a = slot b → a = b

theorem Pinned.ne_log (h : Pinned r slot n i s) {m : Nat} (hm : m < n) :
    s.log.lh.block m ≠ s.log.start + m + 1 := by
  intro he
  have := h.fits
  exact h.outside m hm ⟨by omega, by omega⟩

theorem Pinned.after (h : Pinned r slot n i s) (ha : After r [] w s t) : Pinned r slot n i t where
  free := ⟨(ha.mem i).mpr h.free.1, h.free.2⟩
  outside := ha.log ▸ h.outside
  fits := h.fits
  holds m hm := by
    rw [ha.log]
    exact ha.holds _ _ (h.pos m hm) (h.holds m hm)
  pos := h.pos
  apart := h.apart

theorem writeLog_completes (h : Accounted r [] s) (hpin : Pinned r slot n i s) (hn : s.log.lh.n = n)
    (hp : n ≤ s.power) : Completes writeLog s (fun _ t => After r [] n s t) := by
  unfold writeLog
  apply Ensures.bind_get
  rw [hn, Int.toNat_natCast]
  refine Ensures.forM_range _ (fun k t => After r [] k s t) n ?_ (After.refl h)
  intro k t hk ht
  have hpow := ht.power
  have hpin' := hpin.after ht
  rw [← ht.log]
  refine (writeLog_step ht.accounted hpin'.free (hpin'.holds k hk) (hpin.pos k hk) (hpin'.ne_log hk)
    (by omega)).post ?_
  intro _ u hu
  exact ht.next hu

theorem installTrans_completes (h : Accounted r [] s) (hpin : Pinned r slot n i s) (hn : s.log.lh.n = n)
    (hp : n ≤ s.power) :
    Completes (installTrans false) s (fun _ t => After (fun i => r i - unpins slot n i) [] n s t) := by
  unfold installTrans
  apply Ensures.bind_get
  rw [hn, Int.toNat_natCast]
  refine Ensures.forM_range _ (fun k t => After (fun i => r i - unpins slot k i) [] k s t) n ?_ ?_
  · intro k t hk ht
    have hpow := ht.power
    have hleft : unpins slot k (slot k) = 0 := by
      refine unpins_eq_zero (fun m hm he => ?_)
      have := hpin.apart m k (by omega) hk he
      omega
    have hpos : 0 < r (slot k) - unpins slot k (slot k) := by
      have := hpin.pos k hk
      omega
    have hfree : i ∈ t.lru ∧ r i - unpins slot k i = 0 := by
      refine ⟨(ht.mem i).mpr hpin.free.1, ?_⟩
      rw [hpin.free.2, Nat.zero_sub]
    have hne := hpin.ne_log hk
    have hholds := ht.holds _ _ hpos (hpin.holds k hk)
    rw [show s.log.dev = t.log.dev by rw [ht.log]]
    refine (installTrans_step ht.accounted hfree hholds hpos hne (by omega)).post ?_
    intro _ u hu
    rw [unpins_update] at hu
    refine ht.trans hu (fun j => ?_)
    rw [unpins_succ]
    omega
  · exact After.refl h

end Loops

def Listed (s : Kernel) (i : Nat) : Prop :=
  (s.buf i).dev = s.log.dev ∧ ∃ k < s.log.lh.n.toNat, s.log.lh.block k = (s.buf i).blockno

instance (s : Kernel) (i : Nat) : Decidable (Listed s i) := inferInstanceAs (Decidable (_ ∧ _))

/-- A transaction the log can hold is about to be committed: its blocks are pinned, and nobody
refers to any other buffer. -/
@[mk_iff]
structure Admitted (s : Kernel) : Prop where
  nonempty : 1 ≤ s.log.lh.n
  fits : s.log.lh.n ≤ logBlocks
  distinct : ∀ i < s.log.lh.n.toNat, ∀ j < s.log.lh.n.toNat, s.log.lh.block i = s.log.lh.block j → i = j
  outside : ∀ i < s.log.lh.n.toNat, ¬ InLog s.log.start (s.log.lh.block i)
  nodup : s.lru.Nodup
  length : s.lru.length = nbuf
  unique : ∀ i ∈ s.lru, ∀ j ∈ s.lru, (s.buf i).dev = s.log.dev → (s.buf j).dev = s.log.dev →
    (s.buf i).blockno = (s.buf j).blockno → i = j
  unlocked : ∀ i ∈ s.lru, (s.buf i).locked = false
  pinned : ∀ k < s.log.lh.n.toNat, ∃ i ∈ s.lru, (s.buf i).dev = s.log.dev ∧
    (s.buf i).blockno = s.log.lh.block k ∧ 0 < (s.buf i).refcnt
  others : ∀ i ∈ s.lru, ¬ Listed s i → (s.buf i).refcnt = 0

instance (s : Kernel) : Decidable (Admitted s) := decidable_of_iff' _ (admitted_iff s)

theorem Admitted.accounted (h : Admitted s) : Accounted (fun i => (s.buf i).refcnt) [] s where
  unique i j b hi hj := h.unique i hi.1 j hj.1 hi.2.1 hj.2.1 (hi.2.2.trans hj.2.2.symm)
  counts _ _ := by simp
  locks i hi := by simp [h.unlocked i hi]
  own := by simp
  nodup := by simp

theorem Admitted.exists_slot (h : Admitted s) : ∃ slot : Nat → Nat,
    (∀ k, k < s.log.lh.n.toNat → Holds s (slot k) (s.log.lh.block k) ∧ 0 < (s.buf (slot k)).refcnt) ∧
    ∀ a b, a < s.log.lh.n.toNat → b < s.log.lh.n.toNat → slot a = slot b → a = b := by
  have hslot : ∀ k, ∃ i, k < s.log.lh.n.toNat →
      Holds s i (s.log.lh.block k) ∧ 0 < (s.buf i).refcnt := by
    intro k
    by_cases hk : k < s.log.lh.n.toNat
    · obtain ⟨i, hm, hd, hb, hr⟩ := h.pinned k hk
      exact ⟨i, fun _ => ⟨⟨hm, hd, hb⟩, hr⟩⟩
    · exact ⟨0, fun hk' => absurd hk' hk⟩
  choose slot hslot using hslot
  refine ⟨slot, hslot, fun a b ha hb he => h.distinct a ha b hb ?_⟩
  rw [← (hslot a ha).1.2.2, ← (hslot b hb).1.2.2, he]

theorem Admitted.lru_card (h : Admitted s) : s.lru.toFinset.card = nbuf := by
  rw [List.toFinset_card_of_nodup h.nodup, h.length]

theorem Admitted.exists_pinned (h : Admitted s) (hroom : s.log.lh.n < nbuf) :
    ∃ slot i, Pinned (fun i => (s.buf i).refcnt) slot s.log.lh.n.toNat i s := by
  obtain ⟨slot, hslot, hinj⟩ := h.exists_slot
  have hcard : ((Finset.range s.log.lh.n.toNat).image slot).card < s.lru.toFinset.card := by
    have hle := Finset.card_image_le (s := Finset.range s.log.lh.n.toNat) (f := slot)
    have := h.nonempty
    rw [Finset.card_range] at hle
    rw [h.lru_card]
    omega
  obtain ⟨i, hi, hout⟩ := Finset.exists_mem_notMem_of_card_lt_card hcard
  have hi : i ∈ s.lru := List.mem_toFinset.mp hi
  refine ⟨slot, i, ⟨hi, h.others i hi ?_⟩, h.outside, by have := h.fits; omega,
    fun m hm => (hslot m hm).1, fun m hm => (hslot m hm).2, hinj⟩
  rintro ⟨hd, k, hk, hb⟩
  have he := h.accounted.unique i (slot k) _ ⟨hi, hd, hb.symm⟩ (hslot k hk).1
  exact hout (Finset.mem_image.mpr ⟨k, Finset.mem_range.mpr hk, he.symm⟩)

theorem commit_ensures_unpinned {slot : Nat → Nat} {n : Nat} (h : Accounted r [] s)
    (hpin : Pinned r slot n i s) (hn : s.log.lh.n = n) (hpos : 0 < n) (hp : 2 * n + 2 ≤ s.power) :
    Completes commit s (fun _ t => Accounted (fun i => r i - unpins slot n i) [] t ∧
      ∀ i, i ∈ t.lru ↔ i ∈ s.lru) := by
  unfold commit
  apply Ensures.bind_get
  rw [if_pos (by omega)]
  refine (writeLog_completes h hpin hn (by omega)).seq ?_
  intro _ t ht
  have hpow := ht.power
  refine (writeHead_completes ht.accounted (hpin.after ht).free (by omega)).seq ?_
  intro _ u hu
  have hsu := ht.next hu
  have hpow' := hsu.power
  refine (installTrans_completes hu.accounted (hpin.after hsu) (by rw [hsu.log]; exact hn) (by omega)).seq ?_
  intro _ x hx
  have hpow'' := hx.power
  apply Ensures.bind_modify
  have hfree : i ∈ x.lru ∧ r i - unpins slot n i = 0 := by
    refine ⟨(hx.mem i).mpr ((hsu.mem i).mpr hpin.free.1), ?_⟩
    rw [hpin.free.2, Nat.zero_sub]
  refine (writeHead_completes hx.accounted.clearHead hfree (show 0 < x.power by omega)).post ?_
  intro _ y hy
  exact ⟨hy.accounted, fun j => (hy.mem j).trans ((hx.mem j).trans (hsu.mem j))⟩

/-- A transaction of fewer blocks than there are buffers is committed, and every buffer it had
pinned loses exactly that pin. -/
theorem commit_completes (h : Admitted s) (hroom : s.log.lh.n < nbuf)
    (hp : 2 * s.log.lh.n.toNat + 2 ≤ s.power) :
    ∃ t, commit s = .ok ⟨⟩ t ∧ ∀ i ∈ s.lru, (Listed s i → (t.buf i).refcnt + 1 = (s.buf i).refcnt) ∧
      (¬ Listed s i → (t.buf i).refcnt = 0) := by
  obtain ⟨slot, i₀, hpin⟩ := h.exists_pinned hroom
  have hn : s.log.lh.n = (s.log.lh.n.toNat : Int) := by
    have := h.nonempty
    omega
  have hens := commit_ensures_unpinned h.accounted hpin hn (by have := h.nonempty; omega) hp
  cases hc : commit s with
  | error e t => exact (hens.error hc).elim
  | ok a t =>
    obtain ⟨hacc, hmem⟩ := hens.ok hc
    refine ⟨t, rfl, fun i hi => ?_⟩
    have hcount := hacc.counts i ((hmem i).mpr hi)
    simp only [List.map_nil, List.not_mem_nil, ↓reduceIte, add_zero] at hcount
    constructor
    · rintro ⟨hd, k, hk, hb⟩
      obtain rfl : i = slot k := h.accounted.unique i (slot k) _ ⟨hi, hd, hb.symm⟩ (hpin.holds k hk)
      have hpos := hpin.pos k hk
      rw [unpins_eq_one hpin.apart hk] at hcount
      omega
    · intro hl
      rw [hcount, h.others i hi hl, Nat.zero_sub]

/-- Three operations that log the `n` blocks from 100 on. -/
def logFrom (n : Nat) : K PUnit := do
  (List.range 3).forM fun _ => do let _ ← LogOps.beginOp
  (List.range n).forM fun k => do
    let i ← bread 1 (100 + k)
    LogOps.logWrite i
    brelse i
  (List.range 3).forM fun _ => do let _ ← LogOps.endOp

def logged (n : Nat) : Kernel := stopped (logFrom n (boot 2 1 (fun _ _ => 0) 100))

theorem commit_completes_logged : ∃ t, commit (logged 29) = .ok ⟨⟩ t ∧
    ∀ i ∈ (logged 29).lru, (Listed (logged 29) i → (t.buf i).refcnt + 1 = ((logged 29).buf i).refcnt) ∧
      (¬ Listed (logged 29) i → (t.buf i).refcnt = 0) := by
  obtain ⟨hadm, hroom, hp⟩ : Admitted (logged 29) ∧ (logged 29).log.lh.n < nbuf ∧
      2 * (logged 29).log.lh.n.toNat + 2 ≤ (logged 29).power := by decide +kernel
  exact commit_completes hadm hroom hp

theorem Admitted.all_listed (h : Admitted s) (hfull : s.log.lh.n = nbuf) (hi : i ∈ s.lru) :
    ∃ k, k < s.log.lh.n.toNat ∧ Holds s i (s.log.lh.block k) ∧ 0 < (s.buf i).refcnt := by
  obtain ⟨slot, hslot, hinj⟩ := h.exists_slot
  have hsub : (Finset.range s.log.lh.n.toNat).image slot ⊆ s.lru.toFinset := by
    intro j hj
    obtain ⟨k, hk, rfl⟩ := Finset.mem_image.mp hj
    exact List.mem_toFinset.mpr (hslot k (Finset.mem_range.mp hk)).1.1
  have hcard : ((Finset.range s.log.lh.n.toNat).image slot).card = nbuf := by
    rw [Finset.card_image_of_injOn, Finset.card_range, hfull, Int.toNat_natCast]
    intro a ha b hb he
    exact hinj a b (Finset.mem_range.mp ha) (Finset.mem_range.mp hb) he
  have heq := Finset.eq_of_subset_of_card_le hsub (by rw [hcard, h.lru_card])
  have himage : i ∈ (Finset.range s.log.lh.n.toNat).image slot := heq ▸ List.mem_toFinset.mpr hi
  obtain ⟨k, hk, rfl⟩ := Finset.mem_image.mp himage
  exact ⟨k, Finset.mem_range.mp hk, hslot k (Finset.mem_range.mp hk)⟩

/-- A transaction that fills the log pins every buffer, so `write_log` finds none for its first
block. -/
theorem Admitted.full_panics (h : Admitted s) (hfull : s.log.lh.n = nbuf) :
    ∃ t, commit s = .error (.panic "bget: no buffers") t := by
  have hens : Ensures commit s (fun _ _ => False) (fun e _ => e = .panic "bget: no buffers") := by
    unfold commit
    apply Ensures.bind_get
    rw [if_pos (by have := h.nonempty; omega)]
    apply Ensures.bind
    unfold writeLog
    apply Ensures.bind_get
    refine (Ensures.forM_range _ (fun k t => k = 0 ∧ t = s) _ ?_ ⟨rfl, rfl⟩).post ?_
    · rintro k t hk ⟨rfl, rfl⟩
      apply Ensures.bind
      apply bread_spec
      · intro i hi _ hb
        obtain ⟨m, hm, hold, _⟩ := h.all_listed hfull hi
        have hout := h.outside m hm
        rw [← hold.2.2, hb] at hout
        exact absurd ⟨by omega, Nat.add_le_add_left (by decide) _⟩ hout
      · intro _ i hi hr
        obtain ⟨m, hm, _, hpos⟩ := h.all_listed hfull hi
        omega
      · intro _ _
        rfl
    · rintro _ t ⟨hz, -⟩
      have := h.nonempty
      omega
  cases hc : commit s with
  | ok a t => exact (hens.ok hc).elim
  | error e t => exact ⟨t, hens.error hc ▸ rfl⟩

theorem full_commit_panics : Admitted (logged 30) ∧ (logged 30).log.lh.n = logBlocks ∧
    2 * (logged 30).log.lh.n.toNat + 2 ≤ (logged 30).power ∧
    ∃ t, commit (logged 30) = .error (.panic "bget: no buffers") t := by
  obtain ⟨hadm, hn, hp⟩ : Admitted (logged 30) ∧ (logged 30).log.lh.n = logBlocks ∧
      2 * (logged 30).log.lh.n.toNat + 2 ≤ (logged 30).power := by decide +kernel
  exact ⟨hadm, hn, hp, hadm.full_panics hn⟩

end Xv6.LogCommit
