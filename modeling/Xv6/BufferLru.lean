import Xv6.BufferList
import Mathlib.Data.Fintype.Card

namespace Xv6.BufferList

open Xv6.Lib Xv6.BufferCache Function

variable {ι : Type} {c : Cache} {l : List (Fin nbuf)} {i j : Fin nbuf} {a : ι × Op}

abbrev Cache.Lists (c : Cache) (l : List (Fin nbuf)) : Prop := Circular none c.next c.prev (l.map some)

namespace Cache

theorem Lists.nodup (h : c.Lists l) : l.Nodup :=
  List.Nodup.of_map some (List.nodup_cons.mp (Circular.nodup h)).2

theorem Lists.length_lt (h : c.Lists l) : l.length < nbuf + 1 := by
  have hle := h.nodup.length_le_card
  rw [Fintype.card_fin] at hle
  exact Nat.lt_succ_of_le hle

theorem find_map_some (l : List (Fin nbuf)) (p : Node → Bool) :
    ((l.map some).find? p).getD none = l.find? fun i => p (some i) := by
  rw [List.find?_map]
  cases hf : l.find? (p ∘ some) with
  | none | some i => exact hf.symm

theorem Lists.seek_next (h : c.Lists l) (p : Node → Bool) :
    seek c.next none p (nbuf + 1) (c.next none) = some (l.find? fun i => p (some i)) := by
  rw [(Circular.next h).seek_eq (by simp) (by simpa using h.length_lt), find_map_some]

theorem Lists.seek_prev (h : c.Lists l) (p : Node → Bool) :
    seek c.prev none p (nbuf + 1) (c.prev none) = some (l.reverse.find? fun i => p (some i)) := by
  have hp := Circular.prev h
  rw [← List.map_reverse] at hp
  rw [hp.seek_eq (by simp) (by simpa using h.length_lt), find_map_some]

theorem Lists.insert (h : c.Lists l) (hi : i ∉ l) : (c.insert (some i)).Lists (i :: l) := by
  have hlink := Circular.link h (b := some i) (by simpa using hi)
  have hnext : update c.next (some i) (c.next none) none = c.next none :=
    update_of_ne (by simp) ..
  simpa only [Lists, Cache.insert, setNext, setPrev, hnext, List.map_cons] using hlink

theorem Lists.foldl_insert {k : List (Fin nbuf)} (hk : k.Nodup) (h : c.Lists l) (hd : ∀ i ∈ k, i ∉ l) :
    (k.foldl (fun c i => c.insert (some i)) c).Lists (k.reverse ++ l) := by
  induction k generalizing c l with
  | nil => exact h
  | cons i k ih =>
    obtain ⟨hi, hk⟩ := List.nodup_cons.mp hk
    rw [List.foldl_cons, List.reverse_cons, List.append_assoc]
    refine ih hk (h.insert (hd i List.mem_cons_self)) fun j hj hjl => ?_
    rcases List.mem_cons.mp hjl with rfl | hjl
    · exact hi hj
    · exact hd j (List.mem_cons_of_mem _ hj) hjl

theorem binit_lists (c : Cache) : c.binit.Lists (List.finRange nbuf).reverse := by
  have hempty : ((c.setPrev none none).setNext none none).Lists [] :=
    Circular.empty (by simp [setNext]) (by simp [setNext, setPrev])
  simpa [binit] using hempty.foldl_insert (List.nodup_finRange nbuf) fun i _ hi => by cases hi

theorem foldl_insert_buf (k : List (Fin nbuf)) (c : Cache) :
    (k.foldl (fun c i => c.insert (some i)) c).buf = c.buf := by
  induction k generalizing c with
  | nil => rfl
  | cons i k ih => exact ih _

theorem binit_buf (c : Cache) : c.binit.buf = c.buf := foldl_insert_buf _ _

theorem Lists.relink (h : c.Lists l) (hi : i ∈ l) :
    (((c.setPrev (c.next (some i)) (c.prev (some i))).setNext (c.prev (some i))
      (c.next (some i))).insert (some i)).Lists (i :: l.erase i) := by
  obtain ⟨l₁, l₂, rfl⟩ := List.append_of_mem hi
  have hnot : i ∉ l₁ ∧ i ∉ l₂ := by
    have hnd := h.nodup
    rw [List.nodup_append] at hnd
    exact ⟨fun hm => hnd.2.2 i hm i List.mem_cons_self rfl, (List.nodup_cons.mp hnd.2.1).1⟩
  have herase : (l₁ ++ i :: l₂).erase i = l₁ ++ l₂ := by
    rw [List.erase_append_right _ hnot.1, List.erase_cons_head]
  rw [herase]
  refine Lists.insert ?_ fun hm => (List.mem_append.mp hm).elim hnot.1 hnot.2
  have hcirc : Circular none c.next c.prev (l₁.map some ++ some i :: l₂.map some) := by
    simpa only [Lists, List.map_append, List.map_cons] using h
  simpa only [Lists, setNext, setPrev, List.map_append] using hcirc.unlink

theorem brelse_links (c : Cache) (i : Fin nbuf) (h0 : decr (c.buf i).refcnt ≠ 0) :
    (c.brelse i).next = c.next ∧ (c.brelse i).prev = c.prev := by
  simp [brelse, setBuf, h0]

theorem Lists.brelse (h : c.Lists l) (hi : i ∈ l) (h0 : decr (c.buf i).refcnt = 0) :
    (c.brelse i).Lists (i :: l.erase i) := by
  have hprev : update c.prev (c.next (some i)) (c.prev (some i)) (some i) = c.prev (some i) := by
    rw [update_apply]
    split_ifs <;> rfl
  have hrelink := h.relink hi
  simpa [Cache.brelse, setBuf, setPrev, setNext, h0, hprev, Cache.insert] using hrelink

theorem brelse_buf (c : Cache) (i : Fin nbuf) :
    (c.brelse i).buf = (c.setBuf i { c.buf i with refcnt := decr (c.buf i).refcnt }).buf := by
  unfold brelse
  dsimp only
  split_ifs <;> rfl

theorem Lists.bget (h : c.Lists l) (dev blockno : Nat) :
    (∃ i, l.find? (fun i => (c.buf i).dev = dev ∧ (c.buf i).blockno = blockno) = some i ∧
      c.bget dev blockno = .ok (i, c.setBuf i { c.buf i with refcnt := incr (c.buf i).refcnt })) ∨
    l.find? (fun i => (c.buf i).dev = dev ∧ (c.buf i).blockno = blockno) = none ∧
      ((∃ i, l.reverse.find? (fun i => (c.buf i).refcnt = 0) = some i ∧ c.bget dev blockno =
        .ok (i, c.setBuf i { c.buf i with
          dev := dev
          blockno := blockno
          valid := false
          refcnt := 1 })) ∨
      c.bget dev blockno = .error (.panic "bget: no buffers")) := by
  have hholds : (fun i => c.holds dev blockno (some i)) =
      fun i => decide ((c.buf i).dev = dev ∧ (c.buf i).blockno = blockno) := rfl
  have hunused : (fun i => c.unused (some i)) = fun i => decide ((c.buf i).refcnt = 0) := rfl
  unfold Cache.bget
  rw [h.seek_next, h.seek_prev, hholds, hunused]
  cases l.find? fun i => decide ((c.buf i).dev = dev ∧ (c.buf i).blockno = blockno) with
  | some i => exact .inl ⟨i, rfl, rfl⟩
  | none =>
    refine .inr ⟨rfl, ?_⟩
    cases l.reverse.find? fun i => decide ((c.buf i).refcnt = 0) with
    | some i => exact .inl ⟨i, rfl, rfl⟩
    | none => exact .inr rfl

end Cache

/-- The list has every buffer, sorted by the last release, and `refcnt` counts the references. -/
structure Inv (s : Sys ι) : Prop where
  list : ∃ l, s.cache.Lists l ∧ (∀ i, i ∈ l) ∧ l.Pairwise fun i j => s.released j ≤ s.released i
  unique : ∀ i j, (s.cache.buf i).dev ≠ 0 → (s.cache.buf i).dev = (s.cache.buf j).dev →
    (s.cache.buf i).blockno = (s.cache.buf j).blockno → i = j
  count : ∀ i, (s.cache.buf i).refcnt = s.references i % 2 ^ 32
  clock : ∀ i, s.released i ≤ s.clock
  ends : s.stopped ≠ some .hang

variable {s t : Sys ι} {p : ι} {dev blockno : Nat}

theorem Inv.same (h : Inv s) (hnext : t.cache.next = s.cache.next) (hprev : t.cache.prev = s.cache.prev)
    (hid : ∀ i, (t.cache.buf i).dev = (s.cache.buf i).dev ∧
      (t.cache.buf i).blockno = (s.cache.buf i).blockno)
    (hcount : ∀ i, (t.cache.buf i).refcnt = t.references i % 2 ^ 32) (hrel : t.released = s.released)
    (hclock : s.clock ≤ t.clock) (hends : t.stopped ≠ some .hang) : Inv t := by
  obtain ⟨l, hl, hall, hsort⟩ := h.list
  refine ⟨⟨l, ?_, hall, hrel ▸ hsort⟩, fun i j hi hd hb => ?_, hcount, fun i => ?_, hends⟩
  · rw [Cache.Lists, hnext, hprev]
    exact hl
  · rw [(hid i).1] at hi hd
    rw [(hid j).1] at hd
    rw [(hid i).2, (hid j).2] at hb
    exact h.unique i j hi hd hb
  · rw [hrel]
    exact (h.clock i).trans hclock

theorem Inv.count_setBuf {b : Buf} (h : Inv s) (hi : b.refcnt = t.references i % 2 ^ 32)
    (hne : ∀ j, j ≠ i → t.references j = s.references j) (j : Fin nbuf) :
    ((s.cache.setBuf i b).buf j).refcnt = t.references j % 2 ^ 32 := by
  obtain rfl | hj := eq_or_ne j i
  · simpa [Cache.setBuf] using hi
  · rw [hne j hj, ← h.count j]
    simp [Cache.setBuf, hj]

theorem setBuf_block {b : Buf} (hid : b.dev = (c.buf i).dev ∧ b.blockno = (c.buf i).blockno) (j : Fin nbuf) :
    ((c.setBuf i b).buf j).dev = (c.buf j).dev ∧ ((c.setBuf i b).buf j).blockno = (c.buf j).blockno := by
  obtain rfl | hj := eq_or_ne j i
  · simpa [Cache.setBuf] using hid
  · simp [Cache.setBuf, hj]

theorem Inv.setBuf {b : Buf} (h : Inv s) (hcache : t.cache = s.cache.setBuf i b)
    (hid : b.dev = (s.cache.buf i).dev ∧ b.blockno = (s.cache.buf i).blockno)
    (hi : b.refcnt = t.references i % 2 ^ 32) (hne : ∀ j, j ≠ i → t.references j = s.references j)
    (hrel : t.released = s.released) (hclock : s.clock ≤ t.clock) (hends : t.stopped = s.stopped) :
    Inv t := by
  refine h.same (by rw [hcache]; rfl) (by rw [hcache]; rfl) (fun j => ?_) (fun j => ?_) hrel hclock
    (hends ▸ h.ends)
  · rw [hcache]
    exact setBuf_block hid j
  · rw [hcache]
    exact h.count_setBuf hi hne j

theorem Inv.oldest {l : List (Fin nbuf)} (hall : ∀ i, i ∈ l)
    (hsort : l.Pairwise fun i j => s.released j ≤ s.released i)
    (hf : l.reverse.find? (fun i => (s.cache.buf i).refcnt = 0) = some i) :
    (s.cache.buf i).refcnt = 0 ∧ ∀ j, (s.cache.buf j).refcnt = 0 → s.released i ≤ s.released j := by
  obtain ⟨hi, as, bs, hl, hbefore⟩ := List.find?_eq_some_iff_append.mp hf
  refine ⟨by simpa using hi, fun j hj => ?_⟩
  have hsort' := List.pairwise_reverse.mpr hsort
  have hmem : j ∈ l.reverse := List.mem_reverse.mpr (hall j)
  rw [hl] at hsort' hmem
  rcases List.mem_append.mp hmem with hm | hm
  · have hne := hbefore j hm
    simp [hj] at hne
  · rcases List.mem_cons.mp hm with rfl | hm
    · exact le_rfl
    · exact (List.pairwise_cons.mp (List.pairwise_append.mp hsort').2.1).1 j hm

theorem references_cons {c : Cache} {st : Stage} (j : Fin nbuf) :
    { s with
      cache := c
      refs := ⟨p, i, st⟩ :: s.refs }.references j = s.references j + if i = j then 1 else 0 := by
  simp only [Sys.references, List.countP_cons, decide_eq_true_eq]
  omega

theorem Inv.bget (h : Inv s) {c : Cache} (hb : s.cache.bget dev blockno = .ok (i, c)) :
    Inv { s with
      cache := c
      refs := ⟨p, i, .waiting⟩ :: s.refs } := by
  have hself : ∀ c : Cache, { s with cache := c, refs := ⟨p, i, .waiting⟩ :: s.refs }.references i =
      s.references i + 1 := fun c => by rw [references_cons, if_pos rfl]
  have hother : ∀ (c : Cache) j, j ≠ i →
      { s with cache := c, refs := ⟨p, i, .waiting⟩ :: s.refs }.references j = s.references j :=
    fun c j hj => by rw [references_cons, if_neg hj.symm, Nat.add_zero]
  have hcount := h.count i
  obtain ⟨l, hl, hall, hsort⟩ := h.list
  rcases hl.bget dev blockno with ⟨k, -, hk⟩ | ⟨hmiss, ⟨k, hf, hk⟩ | hk⟩
  · rw [hk] at hb
    cases hb
    refine h.setBuf rfl ⟨rfl, rfl⟩ ?_ (hother _) rfl le_rfl rfl
    rw [hself]
    dsimp only
    rw [hcount, Cache.incr]
    omega
  · rw [hk] at hb
    cases hb
    have hzero := (Inv.oldest hall hsort hf).1
    have hnone : ∀ j, ¬ ((s.cache.buf j).dev = dev ∧ (s.cache.buf j).blockno = blockno) := fun j hj => by
      simpa [hj] using List.find?_eq_none.mp hmiss j (hall j)
    refine ⟨⟨l, hl, hall, hsort⟩, fun a b ha hd hb => ?_, h.count_setBuf ?_ (hother _), h.clock, h.ends⟩
    · by_cases hai : a = i
      · by_cases hbi : b = i
        · rw [hai, hbi]
        · subst hai
          simp only [Cache.setBuf, update_self, update_of_ne hbi] at hd hb
          exact absurd ⟨hd.symm, hb.symm⟩ (hnone b)
      · obtain rfl | hbi := eq_or_ne b i
        · simp only [Cache.setBuf, update_self, update_of_ne hai] at hd hb
          exact absurd ⟨hd, hb⟩ (hnone a)
        · simp only [Cache.setBuf, update_of_ne hai, update_of_ne hbi] at ha hd hb
          exact h.unique a b ha hd hb
    · rw [hself]
      dsimp only
      omega
  · rw [hk] at hb
    cases hb

theorem mem_front (hj : j ∈ l) : j ∈ i :: l.erase i := by
  by_cases hji : j = i
  · exact hji ▸ List.mem_cons_self
  · exact List.mem_cons_of_mem _ ((List.mem_erase_of_ne hji).mpr hj)

theorem references_pins (c : Cache) (k : Nat) (i j : Fin nbuf) :
    { s with
      cache := c
      pins := update s.pins i k }.references j + (if i = j then s.pins i else 0) =
      s.references j + if i = j then k else 0 := by
  obtain rfl | hj := eq_or_ne i j
  · simp [Sys.references]
    omega
  · simp [Sys.references, hj, update_of_ne (Ne.symm hj)]

theorem Inv.init : Inv (init : Sys ι) := by
  have hbuf : ∀ i, (BufferList.init : Sys ι).cache.buf i = zeroed.buf i := fun i => by
    rw [BufferList.init, Cache.binit_buf]
  refine ⟨⟨_, Cache.binit_lists zeroed, fun i => by simp, ?_⟩, fun i j hi => ?_, fun i => ?_,
    fun i => le_rfl, by simp [BufferList.init]⟩
  · exact List.pairwise_of_forall fun _ _ => le_rfl
  · rw [hbuf] at hi
    exact absurd rfl hi
  · rw [hbuf]
    rfl

def Reassigns (s t : Sys ι) (i : Fin nbuf) : Prop :=
  (t.cache.buf i).dev ≠ (s.cache.buf i).dev ∨ (t.cache.buf i).blockno ≠ (s.cache.buf i).blockno

theorem not_reassigns (hid : (t.cache.buf i).dev = (s.cache.buf i).dev ∧
    (t.cache.buf i).blockno = (s.cache.buf i).blockno) : ¬ Reassigns s t i :=
  fun hre => hre.elim (fun hne => hne hid.1) fun hne => hne hid.2

theorem Inv.bget_reassigns (h : Inv s) {c : Cache} {k : Fin nbuf}
    (hb : s.cache.bget dev blockno = .ok (k, c)) (ht : t.cache = c) (hre : Reassigns s t i) :
    (s.cache.buf i).refcnt = 0 ∧ ∀ j, (s.cache.buf j).refcnt = 0 → s.released i ≤ s.released j := by
  obtain ⟨l, hl, hall, hsort⟩ := h.list
  rcases hl.bget dev blockno with ⟨k', -, hk⟩ | ⟨-, ⟨k', hf, hk⟩ | hk⟩
  · rw [hk] at hb
    cases hb
    refine absurd hre (not_reassigns ?_)
    rw [ht]
    exact setBuf_block (by exact ⟨rfl, rfl⟩) i
  · rw [hk] at hb
    cases hb
    by_cases hi : i = k
    · rw [hi]
      exact Inv.oldest hall hsort hf
    · refine absurd hre (not_reassigns ?_)
      simp [ht, Cache.setBuf, hi]
  · rw [hk] at hb
    cases hb

variable [DecidableEq ι]

theorem countP_erase {r : Ref ι} {refs : List (Ref ι)} (hr : r ∈ refs) (i : Fin nbuf) :
    (refs.erase r).countP (·.buf = i) + (if r.buf = i then 1 else 0) = refs.countP (·.buf = i) := by
  rw [(List.perm_cons_erase hr).countP_eq, List.countP_cons]
  simp

theorem references_move {st : Stage} (st' : Stage) (hr : ⟨p, i, st⟩ ∈ s.refs) (j : Fin nbuf) :
    (s.move p i st st').references j = s.references j := by
  have he := countP_erase hr j
  simp only [Sys.references, Sys.move, List.countP_cons]
  simp only at he
  rw [← he]
  simp

theorem decr_count {r m : Nat} (hr : r = m % 2 ^ 32) (hm : 0 < m) : decr r = (m - 1) % 2 ^ 32 := by
  unfold decr
  split_ifs <;> omega

theorem references_brelse (hr : ⟨p, i, .releasing⟩ ∈ s.refs) (j : Fin nbuf) :
    (s.brelse p i).references j + (if i = j then 1 else 0) = s.references j := by
  have he := countP_erase hr j
  simp only [Sys.references, Sys.brelse]
  simp only at he
  omega

theorem Inv.count_brelse (h : Inv s) (hr : ⟨p, i, .releasing⟩ ∈ s.refs) (j : Fin nbuf) :
    ((s.cache.brelse i).buf j).refcnt = (s.brelse p i).references j % 2 ^ 32 := by
  have hself := references_brelse hr i
  rw [if_pos rfl] at hself
  rw [Cache.brelse_buf]
  refine h.count_setBuf ?_ (fun j hj => ?_) j
  · dsimp only
    rw [decr_count (h.count i) (by omega), ← hself, Nat.add_sub_cancel]
  · rw [← references_brelse hr j, if_neg hj.symm, Nat.add_zero]

theorem brelse_block (c : Cache) (i j : Fin nbuf) : ((c.brelse i).buf j).dev = (c.buf j).dev ∧
    ((c.brelse i).buf j).blockno = (c.buf j).blockno := by
  rw [Cache.brelse_buf]
  exact setBuf_block (by exact ⟨rfl, rfl⟩) j

theorem pairwise_front {released : Fin nbuf → Nat} {now : Nat} (hnd : l.Nodup)
    (hsort : l.Pairwise fun i j => released j ≤ released i) (hnow : ∀ i, released i ≤ now) :
    (i :: l.erase i).Pairwise fun a b =>
      update released i (now + 1) b ≤ update released i (now + 1) a := by
  have hne : ∀ j ∈ l.erase i, j ≠ i := fun j hj => ((List.Nodup.mem_erase_iff hnd).mp hj).1
  refine List.pairwise_cons.mpr ⟨fun j hj => ?_, ?_⟩
  · rw [update_self, update_of_ne (hne j hj)]
    exact Nat.le_succ_of_le (hnow j)
  · refine (hsort.sublist List.erase_sublist).imp_of_mem fun {a b} ha hb hab => ?_
    rw [update_of_ne (hne a ha), update_of_ne (hne b hb)]
    exact hab

theorem Inv.brelse (h : Inv s) (hr : ⟨p, i, .releasing⟩ ∈ s.refs) : Inv (s.brelse p i) := by
  have hat : ((s.cache.brelse i).buf i).refcnt = decr (s.cache.buf i).refcnt := by
    simp [Cache.brelse_buf, Cache.setBuf]
  by_cases h0 : decr (s.cache.buf i).refcnt = 0
  · obtain ⟨l, hl, hall, hsort⟩ := h.list
    have hrel : (s.brelse p i).released = update s.released i (s.clock + 1) :=
      if_pos (hat.trans h0)
    refine ⟨⟨i :: l.erase i, hl.brelse (hall i) h0, fun j => ?_, ?_⟩, fun a b ha hd hb => ?_,
      h.count_brelse hr, fun j => ?_, h.ends⟩
    · exact mem_front (hall j)
    · rw [hrel]
      exact pairwise_front hl.nodup hsort h.clock
    · have hda := brelse_block s.cache i a
      have hdb := brelse_block s.cache i b
      exact h.unique a b (hda.1 ▸ ha) (hda.1 ▸ hdb.1 ▸ hd) (hda.2 ▸ hdb.2 ▸ hb)
    · rw [hrel]
      by_cases hj : j = i
      · rw [hj, update_self]
        exact le_rfl
      · rw [update_of_ne hj]
        exact Nat.le_succ_of_le (h.clock j)
  · obtain ⟨hnext, hprev⟩ := Cache.brelse_links s.cache i h0
    have hrel : (s.brelse p i).released = s.released := if_neg (hat ▸ h0)
    exact h.same hnext hprev (brelse_block s.cache i) (h.count_brelse hr) hrel (Nat.le_succ _) h.ends

theorem Inv.opStep {op : Op} (h : Inv s) (hop : Paired s (p, op)) (ht : opStep s p op = some t) : Inv t := by
  unfold BufferList.opStep at ht
  cases op with
  | bget dev blockno =>
    dsimp only at ht
    split_ifs at ht
    split at ht
    · next i c hb =>
      cases ht
      exact h.bget hb
    · next e he =>
      cases ht
      obtain ⟨l, hl, -, -⟩ := h.list
      have hstop : e ≠ .hang := by
        rcases hl.bget dev blockno with ⟨k, -, hk⟩ | ⟨-, ⟨k, -, hk⟩ | hk⟩
        · rw [hk] at he
          cases he
        · rw [hk] at he
          cases he
        · rw [hk] at he
          cases he
          simp
      exact h.same rfl rfl (fun _ => ⟨rfl, rfl⟩) h.count rfl le_rfl fun hs => hstop (Option.some.inj hs)
  | acquiresleep i =>
    dsimp only at ht
    split_ifs at ht with hw
    cases ht
    have href := references_move (s := s.setLocked i true) .held (show _ ∈ s.refs from hw.1)
    exact h.setBuf rfl ⟨rfl, rfl⟩ ((h.count i).trans (by rw [href]; rfl)) (fun j _ => href j) rfl le_rfl rfl
  | fill i =>
    dsimp only at ht
    split_ifs at ht
    cases ht
    exact h.setBuf rfl ⟨rfl, rfl⟩ (h.count i) (fun _ _ => rfl) rfl le_rfl rfl
  | releasesleep i =>
    dsimp only at ht
    split_ifs at ht with _ hh
    · cases ht
      have href := references_move (s := s.setLocked i false) .releasing (show _ ∈ s.refs from hh)
      exact h.setBuf rfl ⟨rfl, rfl⟩ ((h.count i).trans (by rw [href]; rfl)) (fun j _ => href j) rfl le_rfl
        rfl
    · cases ht
      exact h.same rfl rfl (fun _ => ⟨rfl, rfl⟩) h.count rfl le_rfl (by simp [Sys.stop])
  | brelse i =>
    dsimp only at ht
    split_ifs at ht with hr
    cases ht
    exact h.brelse hr
  | bpin i =>
    dsimp only at ht
    split_ifs at ht
    cases ht
    have hself := references_pins (s := s) (s.cache.bpin i) (s.pins i + 1) i i
    simp only [if_true] at hself
    refine h.setBuf rfl ⟨rfl, rfl⟩ ?_ (fun j hj => ?_) rfl le_rfl rfl
    · dsimp only [Cache.incr]
      rw [h.count i]
      omega
    · simpa [hj.symm] using references_pins (s := s) (s.cache.bpin i) (s.pins i + 1) i j
  | bunpin i =>
    dsimp only at ht
    split_ifs at ht
    cases ht
    have hpins : 0 < s.pins i := hop.2
    have hself := references_pins (s := s) (s.cache.bunpin i) (s.pins i - 1) i i
    simp only [if_true] at hself
    refine h.setBuf rfl ⟨rfl, rfl⟩ ?_ (fun j hj => ?_) rfl le_rfl rfl
    · have hpos : 0 < s.references i := Nat.lt_of_lt_of_le hpins (Nat.le_add_left ..)
      dsimp only
      rw [decr_count (h.count i) hpos]
      congr 1
      omega
    · simpa [hj.symm] using references_pins (s := s) (s.cache.bunpin i) (s.pins i - 1) i j

theorem Inv.step {a : ι × Op} (h : Inv s) (ha : Paired s a) (ht : step s a = some t) : Inv t := by
  unfold BufferList.step at ht
  split_ifs at ht
  exact h.opStep ha ht

theorem Inv.reassigns (h : Inv s) (ht : BufferList.step s a = some t) (hre : Reassigns s t i) :
    (s.cache.buf i).refcnt = 0 ∧ ∀ j, (s.cache.buf j).refcnt = 0 → s.released i ≤ s.released j := by
  obtain ⟨p, op⟩ := a
  unfold BufferList.step at ht
  split_ifs at ht
  unfold BufferList.opStep at ht
  cases op with
  | bget dev blockno =>
    dsimp only at ht
    split_ifs at ht
    split at ht
    · next k c hb =>
      cases ht
      exact h.bget_reassigns hb rfl hre
    · cases ht
      exact absurd hre (not_reassigns ⟨rfl, rfl⟩)
  | brelse k =>
    dsimp only at ht
    split_ifs at ht
    cases ht
    exact absurd hre (not_reassigns (brelse_block s.cache k i))
  | releasesleep k =>
    dsimp only at ht
    split_ifs at ht
    · cases ht
      exact absurd hre (not_reassigns (setBuf_block (by exact ⟨rfl, rfl⟩) i))
    · cases ht
      exact absurd hre (not_reassigns ⟨rfl, rfl⟩)
  | _ =>
    dsimp only at ht
    split_ifs at ht
    cases ht
    exact absurd hre (not_reassigns (setBuf_block (by exact ⟨rfl, rfl⟩) i))

theorem references_bunpin (ha : Paired s a) (hop : a.2 = .bunpin i)
    (ht : BufferList.step s a = some t) : 0 < t.references i := by
  obtain ⟨p, op⟩ := a
  obtain rfl : op = .bunpin i := hop
  unfold BufferList.step at ht
  split_ifs at ht
  unfold BufferList.opStep at ht
  dsimp only at ht
  split_ifs at ht
  cases ht
  have hheld : ⟨p, i, .held⟩ ∈ s.refs := ha.1
  have hpos : 0 < s.refs.countP (·.buf = i) := List.countP_pos_iff.mpr ⟨_, hheld, by simp⟩
  exact Nat.lt_of_lt_of_le hpos (Nat.le_add_right ..)

/-- The links form one circle with every buffer, no block has two, `refcnt` counts the references, and the
buffer that is given to another block is a free one that was released the longest ago. -/
theorem buffer_cache_structure {as : List (ι × Op)} (hrun : Run step Paired init as s) :
    (∃ l : List (Fin nbuf), Circular none s.cache.next s.cache.prev (l.map some) ∧ ∀ i, i ∈ l) ∧
    (∀ i j, (s.cache.buf i).dev ≠ 0 → (s.cache.buf i).dev = (s.cache.buf j).dev →
      (s.cache.buf i).blockno = (s.cache.buf j).blockno → i = j) ∧
    (∀ i, (s.cache.buf i).refcnt = s.references i % 2 ^ 32) ∧
    (∀ a t i, step s a = some t → Reassigns s t i → (s.cache.buf i).refcnt = 0 ∧
      ∀ j, (s.cache.buf j).refcnt = 0 → s.released i ≤ s.released j) ∧
    (∀ a t i, Paired s a → a.2 = .bunpin i → step s a = some t → 0 < t.references i) ∧
    s.stopped ≠ some .hang := by
  have h : Inv s := hrun.invariant (fun _ _ _ h ha ht => h.step ha ht) Inv.init
  obtain ⟨l, hl, hall, -⟩ := h.list
  exact ⟨⟨l, hl, hall⟩, h.unique, h.count, fun a t i ht hre => h.reassigns ht hre,
    fun a t i ha hop ht => references_bunpin ha hop ht, h.ends⟩

/-- A block is read, pinned and released, a second one read and released, and a third one read. -/
def lruRun : List (Unit × Op) :=
  [.bget 1 5, .acquiresleep 0, .fill 0, .bpin 0, .releasesleep 0, .brelse 0, .bget 1 6, .acquiresleep 1,
    .fill 1, .releasesleep 1, .brelse 1, .bget 1 7].map fun op => ((), op)

theorem buffer_cache_structure_three_blocks : ∃ s : Sys Unit,
    Run step Paired init lruRun s ∧
      ((s.cache.buf 0).blockno = 5 ∧ (s.cache.buf 0).refcnt = 1 ∧ (s.cache.buf 2).blockno = 7 ∧
        s.cache.next none = some 1) ∧
      (∃ l : List (Fin nbuf), Circular none s.cache.next s.cache.prev (l.map some) ∧ ∀ i, i ∈ l) ∧
      (∀ i j, (s.cache.buf i).dev ≠ 0 → (s.cache.buf i).dev = (s.cache.buf j).dev →
        (s.cache.buf i).blockno = (s.cache.buf j).blockno → i = j) ∧
      (∀ i, (s.cache.buf i).refcnt = s.references i % 2 ^ 32) ∧
      (∀ a t i, step s a = some t → Reassigns s t i → (s.cache.buf i).refcnt = 0 ∧
        ∀ j, (s.cache.buf j).refcnt = 0 → s.released i ≤ s.released j) ∧
      (∀ a t i, Paired s a → a.2 = .bunpin i → step s a = some t → 0 < t.references i) ∧
      s.stopped ≠ some .hang := by
  have hrun : ∃ s : Sys Unit, Run step Paired init lruRun s ∧
      (s.cache.buf 0).blockno = 5 ∧ (s.cache.buf 0).refcnt = 1 ∧ (s.cache.buf 2).blockno = 7 ∧
        s.cache.next none = some 1 :=
    Run.exists_of_outcome (by decide +kernel)
  obtain ⟨s, hrun, hs⟩ := hrun
  exact ⟨s, hrun, hs, buffer_cache_structure hrun⟩

/-- The kernel whose cache is kept as a list has the same buffers in the same order. -/
structure Represents (c : Cache) (k : Kernel) : Prop where
  list : ∃ l, c.Lists l ∧ (∀ i, i ∈ l) ∧ k.lru = l.map Fin.val
  buf : ∀ i : Fin nbuf, k.buf i = c.buf i

variable {k : Kernel}

theorem find_lru {l : List (Fin nbuf)} {p : Nat → Bool} {q : Fin nbuf → Bool} (hpq : ∀ i, p i.val = q i) :
    (l.map Fin.val).find? p = (l.find? q).map Fin.val := by
  rw [List.find?_map]
  congr 2
  funext i
  exact hpq i

theorem Represents.setBuf (h : Represents c k) (i : Fin nbuf) (b : Buf) :
    Represents (c.setBuf i b) { k with buf := update k.buf i b } := by
  refine ⟨h.list, fun j => ?_⟩
  obtain rfl | hj := eq_or_ne j i
  · simp [Cache.setBuf]
  · simp [Cache.setBuf, hj, Fin.val_ne_of_ne hj, h.buf]

theorem Represents.bget (h : Represents c k) (hfits : ∀ i, (c.buf i).refcnt + 1 < 2 ^ 32) {c' : Cache}
    (hb : c.bget dev blockno = .ok (i, c')) :
    ∃ k', bgetRef dev blockno k = .ok i.val k' ∧ Represents c' k' := by
  obtain ⟨l, hl, -, hlru⟩ := h.list
  have hfind := find_lru (l := l) (p := fun i => (k.buf i).dev == dev && (k.buf i).blockno == blockno)
    (q := fun i => decide ((c.buf i).dev = dev ∧ (c.buf i).blockno = blockno))
    fun i => Bool.eq_iff_iff.mpr (by simp [h.buf])
  have hunused := find_lru (l := l.reverse) (p := fun i => (k.buf i).refcnt == 0)
    (q := fun i => decide ((c.buf i).refcnt = 0)) fun i => Bool.eq_iff_iff.mpr (by simp [h.buf])
  rw [List.map_reverse] at hunused
  rw [← hlru] at hfind hunused
  rcases hl.bget dev blockno with ⟨j, hf, hj⟩ | ⟨hmiss, ⟨j, hf, hj⟩ | hj⟩
  · rw [hj] at hb
    cases hb
    rw [hf, Option.map_some] at hfind
    refine ⟨_, ?_, h.setBuf i _⟩
    have hincr : Cache.incr (c.buf i).refcnt = (k.buf i).refcnt + 1 := by
      rw [h.buf, Cache.incr, Nat.mod_eq_of_lt (hfits i)]
    simp only [bgetRef, bind_ok, get_ok]
    refine ⟨k, k, ⟨rfl, rfl⟩, ?_⟩
    simp only [hfind, BufferCache.setBuf, bind_ok, modify_ok, pure_ok, h.buf, hincr]
    exact ⟨⟨⟩, _, rfl, trivial, rfl⟩
  · rw [hj] at hb
    cases hb
    rw [hmiss, Option.map_none] at hfind
    rw [hf, Option.map_some] at hunused
    refine ⟨_, ?_, h.setBuf i _⟩
    simp only [bgetRef, bind_ok, get_ok]
    refine ⟨k, k, ⟨rfl, rfl⟩, ?_⟩
    simp only [hfind, hunused, BufferCache.setBuf, bind_ok, modify_ok, pure_ok, h.buf]
    exact ⟨⟨⟩, _, rfl, trivial, rfl⟩
  · rw [hj] at hb
    cases hb

theorem Represents.brelse (h : Represents c k) (i : Fin nbuf) :
    ∃ k', brelseRef i k = .ok ⟨⟩ k' ∧ Represents (c.brelse i) k' := by
  obtain ⟨l, hl, hall, hlru⟩ := h.list
  have hset := h.setBuf i { c.buf i with refcnt := decr (c.buf i).refcnt }
  have hbuf : ∀ j : Fin nbuf, update k.buf i { c.buf i with refcnt := decr (c.buf i).refcnt } j =
      (c.brelse i).buf j := fun j => by rw [Cache.brelse_buf]; exact hset.buf j
  simp only [brelseRef, BufferCache.setBuf, bind_ok, get_ok, modify_ok]
  by_cases h0 : decr (c.buf i).refcnt = 0
  · refine ⟨{ k with
      buf := update k.buf i { c.buf i with refcnt := decr (c.buf i).refcnt }
      lru := i.val :: k.lru.erase i }, ⟨k, k, ⟨rfl, rfl⟩, ⟨⟩, _, rfl, ?_⟩,
      ⟨i :: l.erase i, hl.brelse (hall i) h0, fun j => ?_, ?_⟩, hbuf⟩
    · simp only [h.buf, h0, if_true]
      exact modify_ok.mpr rfl
    · exact mem_front (hall j)
    · rw [List.map_cons, List.map_erase Fin.val_injective, ← hlru]
  · obtain ⟨hnext, hprev⟩ := Cache.brelse_links c i h0
    refine ⟨{ k with buf := update k.buf i { c.buf i with refcnt := decr (c.buf i).refcnt } },
      ⟨k, k, ⟨rfl, rfl⟩, ⟨⟩, _, rfl, ?_⟩, ⟨l, ?_, hall, hlru⟩, hbuf⟩
    · simp only [h.buf, h0, if_false]
      exact pure_ok.mpr ⟨rfl, rfl⟩
    · rw [Cache.Lists, hnext, hprev]
      exact hl

/-- The same operation where the cache is kept as a list. -/
def Op.onList : Op → K PUnit
  | .bget dev blockno => do
    let _ ← bgetRef dev blockno
  | .acquiresleep i => BufferCache.acquiresleep i
  | .fill i => modify fun k => { k with buf := update k.buf i { k.buf i with valid := true } }
  | .releasesleep i => BufferCache.releasesleep i
  | .brelse i => brelseRef i
  | .bpin i => BufferCache.bpin i
  | .bunpin i => BufferCache.bunpin i

/-- No count is about to overflow. -/
abbrev Counts (s : Sys ι) (_ : ι × Op) : Prop := ∀ i, (s.cache.buf i).refcnt + 1 < 2 ^ 32

theorem Represents.step {a : ι × Op} (h : Represents s.cache k) (hfits : Counts s a)
    (ht : BufferList.step s a = some t) (hrun : t.stopped = none) :
    ∃ k', a.2.onList k = .ok ⟨⟩ k' ∧ Represents t.cache k' := by
  obtain ⟨p, op⟩ := a
  unfold BufferList.step at ht
  split_ifs at ht
  unfold BufferList.opStep at ht
  cases op with
  | bget dev blockno =>
    dsimp only at ht
    split_ifs at ht
    split at ht
    · next i c hb =>
      cases ht
      obtain ⟨k', hk, h'⟩ := h.bget hfits hb
      exact ⟨k', bind_ok.mpr ⟨_, _, hk, pure_ok.mpr ⟨rfl, rfl⟩⟩, h'⟩
    · cases ht
      cases hrun
  | acquiresleep i =>
    dsimp only at ht
    split_ifs at ht with hw
    cases ht
    refine ⟨_, ?_, h.setBuf i _⟩
    simp [Op.onList, BufferCache.acquiresleep, BufferCache.setBuf, bind_ok, get_ok, modify_ok, h.buf, hw.2]
  | brelse i =>
    dsimp only at ht
    split_ifs at ht
    cases ht
    exact h.brelse i
  | fill i =>
    dsimp only at ht
    split_ifs at ht
    cases ht
    exact ⟨_, modify_ok.mpr (by rw [h.buf]), h.setBuf i _⟩
  | releasesleep i =>
    dsimp only at ht
    split_ifs at ht
    · cases ht
      exact ⟨_, modify_ok.mpr (by rw [h.buf]), h.setBuf i _⟩
    · cases ht
      cases hrun
  | bpin i =>
    dsimp only at ht
    split_ifs at ht
    cases ht
    have hincr := Nat.mod_eq_of_lt (hfits i)
    exact ⟨_, bind_ok.mpr ⟨k, k, get_ok.mpr ⟨rfl, rfl⟩, modify_ok.mpr (by rw [h.buf, ← hincr]; rfl)⟩, h.setBuf i _⟩
  | bunpin i =>
    dsimp only at ht
    split_ifs at ht
    cases ht
    exact ⟨_, bind_ok.mpr ⟨k, k, get_ok.mpr ⟨rfl, rfl⟩, modify_ok.mpr (by rw [h.buf])⟩, h.setBuf i _⟩

theorem not_stopped (ht : BufferList.step s a = some t) : s.stopped = none := by
  unfold BufferList.step at ht
  split_ifs at ht with hs
  exact Option.not_isSome_iff_eq_none.mp hs

/-- Through whole runs, the linked list is the list of buffers that the other modules work with. -/
theorem linked_list_refines {as : List (ι × Op)}
    (hrun : Run step Counts s as t) (ht : t.stopped = none) (h : Represents s.cache k) :
    ∃ k', (as.forM fun a => a.2.onList) k = .ok ⟨⟩ k' ∧ Represents t.cache k' := by
  induction hrun generalizing k with
  | nil => exact ⟨k, rfl, h⟩
  | cons hfits hs hrest ih =>
    have hgoes : ∀ {u v : Sys ι} {as ok}, Run BufferList.step ok u as v → v.stopped = none → u.stopped = none := by
      intro u v as ok hrun hv
      cases hrun with
      | nil => exact hv
      | cons _ hs _ => exact not_stopped hs
    obtain ⟨k', hk, h'⟩ := h.step hfits hs (hgoes hrest ht)
    obtain ⟨k'', hk', h''⟩ := ih ht h'
    exact ⟨k'', bind_ok.mpr ⟨_, _, hk, hk'⟩, h''⟩

def booted : Kernel where
  disk _ _ := 0
  power := 0
  buf _ := zeroed.buf 0
  lru := (List.finRange nbuf).reverse.map Fin.val
  log := ⟨0, 0, false, 0, ⟨0, fun _ => 0⟩⟩

theorem linked_list_refines_lruRun : ∃ s : Sys Unit, Run step Counts init lruRun s ∧
    (s.stopped = none ∧ s.cache.next none = some 1) ∧
    ∃ k', (lruRun.forM fun a => a.2.onList) booted = .ok ⟨⟩ k' ∧ Represents s.cache k' := by
  have hrun : ∃ s : Sys Unit, Run step Counts init lruRun s ∧ s.stopped = none ∧ s.cache.next none = some 1 :=
    Run.exists_of_outcome (by decide +kernel)
  obtain ⟨s, hrun, hs⟩ := hrun
  refine ⟨s, hrun, hs, linked_list_refines hrun hs.1 ⟨⟨_, Cache.binit_lists zeroed, fun i => by simp, rfl⟩, ?_⟩⟩
  intro i
  rw [init, Cache.binit_buf]
  rfl

end Xv6.BufferList
