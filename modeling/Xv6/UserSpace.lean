import Mathlib.Data.List.Nodup
import Xv6.PageFault

namespace Xv6.Vm

open Xv6.Lib Xv6.Lib.Radix

section Freewalk

variable [Layout] {m m' : Phys} {d r : Nat} {l : List (Fin 512)}

/-- Some pages have been freed, and nothing else has changed. -/
structure Released (freed : Set Nat) (m m' : Phys) : Prop where
  heap : FreeList m'
  free : ∀ x, x ∈ m'.free ↔ x ∈ m.free ∨ x ∈ freed
  others : ∀ x, x ∉ freed → m'.page x = m.page x

/-- A page-table page with `d` levels below it and no entry for memory. -/
structure Bare (m : Phys) (d r : Nat) : Prop where
  tree : Tree m.link d r
  inner : ∀ p x i, p.length ≤ d → node m.link r p = some x → has (m.word x i) pteV = true →
    p.length < d ∧ has (m.word x i) (pteR ||| pteW ||| pteX) = false
  own : ∀ x ∈ nodes m.link d r, Frame x ∧ x ∉ m.free

theorem Bare.congr (h : Bare m d r) (hpages : ∀ x ∈ nodes m.link d r, m'.page x = m.page x)
    (hfree : ∀ x ∈ nodes m.link d r, x ∉ m'.free) : Bare m' d r ∧ nodes m'.link d r = nodes m.link d r := by
  have hnode : ∀ p : List (Fin 512), p.length ≤ d → node m'.link r p = node m.link r p := fun p hp =>
    node_congr (fun q x i hq hx => link_congr (hpages x (mem_nodes hx hq.le)) i) hp
  have hnodes := nodes_congr hnode
  refine ⟨⟨h.tree.congr hnode, fun p x i hp hx hv => ?_, fun x hx => ?_⟩, hnodes⟩
  · rw [hnode p hp] at hx
    have hword := Phys.word_congr (hpages x (mem_nodes hx hp)) i
    rw [hword] at hv ⊢
    exact h.inner p x i hp hx hv
  · rw [hnodes] at hx
    exact ⟨(h.own x hx).1, hfree x hx⟩

theorem Bare.sub {i : Fin 512} {c : Nat} (h : Bare m (d + 1) r) (hc : m.link r i = some c) : Bare m d c := by
  have hnode : ∀ {p x}, node m.link c p = some x → node m.link r (i :: p) = some x := by
    intro p x hp
    rw [node_cons, hc, Option.bind_some, hp]
  refine ⟨h.tree.sub hc, fun p x j hp hx hv => ?_, fun x hx => h.own x (mem_nodes_sub hc hx)⟩
  obtain ⟨hlt, hflags⟩ := h.inner (i :: p) x j (Nat.succ_le_succ hp) (hnode hx) hv
  exact ⟨Nat.lt_of_succ_lt_succ hlt, hflags⟩

def Phys.below (m : Phys) (d r : Nat) (l : List (Fin 512)) : Set Nat :=
  { x | ∃ i ∈ l, ∃ c, m.link r i = some c ∧ x ∈ nodes m.link d c }

structure Walked (m : Phys) (d r : Nat) (l : List (Fin 512)) (m' : Phys) : Prop where
  heap : FreeList m'
  free : ∀ x, x ∈ m'.free ↔ x ∈ m.free ∨ x ∈ m.below d r l
  others : ∀ x, x ≠ r → x ∉ m.below d r l → m'.page x = m.page x
  word : ∀ j, j ∉ l → m'.word r j = m.word r j

theorem Bare.kfree_ensures (h : Bare m (d + 1) r) (hw : Walked m d r l m') (hall : ∀ i, i ∈ l) :
    Completes (kfree r) m' (fun _ m'' => Released (nodes m.link (d + 1) r) m m'') := by
  have hnodes : ∀ x, x ∈ nodes m.link (d + 1) r ↔ x = r ∨ x ∈ m.below d r l := by
    intro x
    rw [mem_nodes_succ]
    refine or_congr_right ⟨fun ⟨i, c, hc⟩ => ⟨i, hall i, c, hc⟩, fun ⟨i, _, c, hc⟩ => ⟨i, c, hc⟩⟩
  have hroot : r ∉ m.below d r l := fun ⟨_, _, c, hc, hr⟩ => h.tree.root_not_mem_sub hc hr
  obtain ⟨hframe, hused⟩ := h.own r root_mem
  have hnot : r ∉ m'.free := fun hc => ((hw.free r).mp hc).elim hused hroot
  refine (Vm.kfree_ensures hframe).post ?_
  rintro _ m'' ⟨hfree, hpages⟩
  refine ⟨hw.heap.cons hframe hnot hfree, fun x => ?_, fun x hx => ?_⟩
  · rw [hfree, List.mem_cons, hw.free, hnodes, or_left_comm]
  · rw [hnodes, not_or] at hx
    rw [hpages x hx.1, hw.others x hx.1 hx.2]

theorem Walked.start (h : FreeList m) (d r : Nat) : Walked m d r [] m := by
  have hnone : ∀ x, x ∉ m.below d r [] := fun x ⟨i, hi, _⟩ => absurd hi List.not_mem_nil
  exact ⟨h, fun x => (or_iff_left (hnone x)).symm, fun _ _ _ => rfl, fun _ _ => rfl⟩

theorem Walked.skip {i : Fin 512} (hw : Walked m d r l m') (hnone : m.link r i = none) :
    Walked m d r (l ++ [i]) m' := by
  have hbelow : m.below d r (l ++ [i]) = m.below d r l := by
    ext x
    constructor
    · rintro ⟨j, hj, c, hc, hx⟩
      obtain hj | hj := List.mem_append.mp hj
      · exact ⟨j, hj, c, hc, hx⟩
      · rw [List.mem_singleton.mp hj, hnone] at hc
        exact absurd hc (by simp)
    · rintro ⟨j, hj, h⟩
      exact ⟨j, List.mem_append_left _ hj, h⟩
  refine ⟨hw.heap, fun x => ?_, fun x hx => ?_, fun j hj => hw.word j fun hc => hj (List.mem_append_left _ hc)⟩
  · rw [hbelow, hw.free]
  · rw [hbelow]
    exact hw.others x hx

theorem Walked.sub {i : Fin 512} {c : Nat} (h : Bare m (d + 1) r) (hw : Walked m d r l m')
    (hi : i ∉ l) (hc : m.link r i = some c) : Bare m' d c ∧ nodes m'.link d c = nodes m.link d c := by
  have hbare := h.sub hc
  have hout : ∀ x ∈ nodes m.link d c, x ∉ m.below d r l := by
    rintro x hx ⟨j, hj, c', hc', hx'⟩
    have hne : i ≠ j := fun he => hi (he ▸ hj)
    exact h.tree.sub_disjoint hc hc' hne hx hx'
  refine hbare.congr (fun x hx => ?_) fun x hx hf => ?_
  · have hne : x ≠ r := fun he => h.tree.root_not_mem_sub hc (he ▸ hx)
    exact hw.others x hne (hout x hx)
  · obtain hf | hf := (hw.free x).mp hf
    · exact (hbare.own x hx).2 hf
    · exact hout x hx hf

theorem Walked.step {l : List (Fin 512)} {i : Fin 512} {c : Nat} {m₁ : Phys} (h : Bare m (d + 1) r)
    (hw : Walked m d r l m') (hc : m.link r i = some c) (hr : Released (nodes m.link d c) m' m₁) :
    Walked m d r (l ++ [i]) (m₁.setWord r i 0) := by
  have hbelow : ∀ x, x ∈ m.below d r (l ++ [i]) ↔ x ∈ m.below d r l ∨ x ∈ nodes m.link d c := by
    intro x
    constructor
    · rintro ⟨j, hj, c', hc', hx⟩
      obtain hj | hj := List.mem_append.mp hj
      · exact .inl ⟨j, hj, c', hc', hx⟩
      · rw [List.mem_singleton.mp hj, hc] at hc'
        exact .inr (Option.some.inj hc' ▸ hx)
    · rintro (⟨j, hj, h⟩ | hx)
      · exact ⟨j, List.mem_append_left _ hj, h⟩
      · exact ⟨i, List.mem_append_right _ (List.mem_singleton.mpr rfl), c, hc, hx⟩
  refine ⟨⟨hr.heap.nodup, hr.heap.frame⟩, fun x => ?_, fun x hx hnot => ?_, fun j hj => ?_⟩
  · rw [hbelow, ← or_assoc, ← hw.free]
    exact hr.free x
  · rw [hbelow, not_or] at hnot
    rw [Phys.setWord_page_ne _ _ _ hx, hr.others x hnot.2, hw.others x hx hnot.1]
  · rw [List.mem_append, not_or, List.mem_singleton] at hj
    rw [Phys.word_setWord_ne _ _ fun hc => hj.2 hc.2, Phys.word_congr (hr.others r (h.tree.root_not_mem_sub hc)),
      hw.word j hj.1]

theorem freewalk_ensures {depth : Nat} (hd : d < depth) (h : Bare m d r) (heap : FreeList m) :
    Completes (freewalk depth r) m (fun _ m' => Released (nodes m.link d r) m m') := by
  induction depth generalizing m d r with
  | zero => exact absurd hd (Nat.not_lt_zero d)
  | succ depth ih =>
    obtain ⟨all, hall, hnodup, hloop⟩ := freewalk_rounds depth r
    rw [hloop]
    apply Ensures.bind
    cases d with
    | zero =>
      have hinvalid : ∀ i, has (m.word r i) pteV = false := fun i =>
        Bool.eq_false_iff.mpr fun hv => absurd (h.inner [] r i (Nat.le_refl 0) rfl hv).1 (Nat.lt_irrefl 0)
      obtain ⟨hframe, hused⟩ := h.own r root_mem
      refine (Ensures.forM_list _ (fun _ t => t = m) all ?_ rfl).post ?_
      · rintro pre i post t - rfl
        apply Ensures.bind_get
        dsimp only
        rw [hinvalid, Bool.false_and, if_neg Bool.false_ne_true, if_neg Bool.false_ne_true]
        exact .pure rfl
      · rintro _ t rfl
        refine (kfree_ensures hframe).post ?_
        rintro _ m' ⟨hfree, hpages⟩
        have hnodes : ∀ x, x ∈ nodes t.link 0 r ↔ x = r := by
          intro x
          constructor
          · rintro ⟨p, hp, hx⟩
            rw [List.length_eq_zero_iff.mp (Nat.le_zero.mp hp)] at hx
            exact (Option.some.inj hx).symm
          · rintro rfl
            exact root_mem
        refine ⟨heap.cons hframe hused hfree, fun x => ?_, fun x hx => hpages x (mt (hnodes x).mpr hx)⟩
        rw [hfree, List.mem_cons, hnodes, or_comm]
    | succ d =>
      refine (Ensures.forM_list _ (fun l t => Walked m d r l t) all ?_ (.start heap d r)).post
        fun _ m₁ hw => h.kfree_ensures hw hall
      intro pre i post t hl hw
      have hnot : i ∉ pre := by
        rw [hl] at hnodup
        exact fun hc => List.disjoint_of_nodup_append hnodup hc List.mem_cons_self
      apply Ensures.bind_get
      dsimp only
      rw [hw.word i hnot]
      by_cases hv : has (m.word r i) pteV = true
      · have hc : m.link r i = some (pte2pa (m.word r i)) := if_pos hv
        obtain ⟨hbare, hnodes⟩ := hw.sub h hnot hc
        have hflags : has (m.word r i) (pteR ||| pteW ||| pteX) = false :=
          (h.inner [] r i (Nat.zero_le _) rfl hv).2
        rw [hv, hflags, if_pos rfl]
        refine (ih (Nat.lt_of_succ_lt_succ hd) hbare hw.heap).seq fun _ m₁ hr => ?_
        apply Ensures.modify
        rw [hnodes] at hr
        exact hw.step h hc hr
      · have hnone : m.link r i = none := if_neg hv
        rw [Bool.eq_false_iff.mpr hv, Bool.false_and, if_neg Bool.false_ne_true, if_neg Bool.false_ne_true]
        exact .pure (hw.skip hnone)

end Freewalk

section Free

variable [Layout] {m m' m'' : Phys} {pt a lo hi sz perm f : Nat}

/-- The pages of a table are pages that were given out, and it has no entries for addresses beyond `MAXVA`. -/
structure Rooted (m : Phys) (pt : Nat) : Prop where
  frame : ∀ x ∈ m.tables pt, Frame x
  upper : ∀ i : Fin 512, 256 ≤ i.1 → has (m.word pt i) pteV = false

theorem Rooted.grown (h : Rooted m pt) (heap : FreeList m) (hg : Grown pt m m') : Rooted m' pt := by
  refine ⟨fun x hx => ?_, fun i hi => by rw [hg.upper i hi, h.upper i hi]⟩
  obtain hx | hx := (hg.tables x).mp hx
  · exact h.frame x hx
  · exact heap.frame x hx.1

theorem Rooted.unmapped {doFree : Bool} (h : Rooted m pt) (hu : Unmapped pt lo hi doFree m m') :
    Rooted m' pt :=
  ⟨fun x hx => h.frame x (hu.tables ▸ hx), fun i hi => by rw [hu.upper i hi, h.upper i hi]⟩

theorem Rooted.congr (h : Rooted m pt) (htables : m'.tables pt = m.tables pt) (hpage : m'.page pt = m.page pt) :
    Rooted m' pt :=
  ⟨fun x hx => h.frame x (htables ▸ hx), fun i hi => by rw [Phys.word_congr hpage, h.upper i hi]⟩

omit [Layout] in
theorem address_of_indices (i j k : Fin 512) (hi : i.1 < 256) :
    ∃ a, a < maxva ∧ path a = [i, j] ∧ px 0 a = k := by
  have hmv : maxva = 2 ^ 38 := rfl
  have hidx : ∀ level v (l : Fin 512), v / 2 ^ (12 + 9 * level) % 512 = l.1 → px level v = l := fun level v l hl =>
    Fin.ext ((px_val level v).trans hl)
  refine ⟨i.1 * 2 ^ 30 + j.1 * 2 ^ 21 + k.1 * 2 ^ 12, by omega, ?_, hidx 0 _ k (by omega)⟩
  rw [path, hidx 2 _ i (by norm_num; omega), hidx 1 _ j (by norm_num; omega)]

theorem Rooted.bare (h : Rooted m pt) (ht : Table m pt) (hnone : ∀ a, a < maxva → m.lookup pt a = none) :
    Bare m 2 pt := by
  refine ⟨ht.tree, fun p x k hp hx hv => ?_, fun x hx => ⟨h.frame x hx, ht.used x hx⟩⟩
  by_cases hlen : p.length < 2
  · exact ⟨hlen, ht.inner p x k hlen hx hv⟩
  · obtain ⟨i, j, rfl⟩ := List.length_eq_two.mp (by omega : p.length = 2)
    have hi : i.1 < 256 := by
      by_contra hge
      rw [node_cons, Phys.link, h.upper i (Nat.not_lt.mp hge)] at hx
      exact absurd hx (by simp)
    obtain ⟨a, ha, hpath, hpx⟩ := address_of_indices i j k hi
    have hlookup := hnone a ha
    rw [← hpath] at hx
    rw [lookup_of_node ha hx, hpx, if_pos hv] at hlookup
    exact absurd hlookup (by simp)

/-- The pages of a page table and those that it maps for the user. -/
def Phys.space (m : Phys) (pt : Nat) : Set Nat := { x | x ∈ m.tables pt ∨ m.MapsTo pt 0 trapframeVa x }

omit [Layout] in
theorem space_congr (htables : m'.tables pt = m.tables pt) (hlookup : ∀ b, m'.lookup pt b = m.lookup pt b) :
    m'.space pt = m.space pt := by
  unfold Phys.space Phys.MapsTo
  simp only [htables, hlookup]

omit [Layout] in
theorem pgRoundUp_pages (sz : Nat) : 0 + pgRoundUp sz / pgsize * pgsize = pgRoundUp sz := by
  rw [Nat.zero_add, Nat.div_mul_cancel (Nat.dvd_of_mod_eq_zero (pgRoundUp_aligned sz))]

theorem UserPages.space_eq (h : UserPages m pt sz) (hsz : sz ≤ trapframeVa) :
    ∀ x, x ∈ m.space pt ↔ x ∈ m.tables pt ∨ m.MapsTo pt 0 (pgRoundUp sz) x := by
  intro x
  refine or_congr_right ⟨?_, ?_⟩
  · rintro ⟨b, e, hb, hb', he, hx⟩
    exact ⟨b, e, hb, h.below b e hb' he, he, hx⟩
  · rintro ⟨b, e, hb, hb', he, hx⟩
    exact ⟨b, e, hb, hb'.trans_le (pgRoundUp_le hsz), he, hx⟩

theorem uvmfree_ensures (h : UserPages m pt sz) (hr : Rooted m pt) (hsz : sz ≤ trapframeVa)
    (hhigh : ∀ a, trapframeVa ≤ a → a < maxva → m.lookup pt a = none) :
    Completes (uvmfree pt sz) m (fun _ m' => Released (m.space pt) m m') := by
  have htop := pgRoundUp_le hsz
  have hmax : trapframeVa ≤ maxva := by decide
  have hrest : ∀ m₁, Unmapped pt 0 (pgRoundUp sz) true m m₁ →
      Completes (freewalk stackDepth pt) m₁ (fun _ m' => Released (m.space pt) m m') := by
    intro m₁ hu
    have hnone : ∀ a, a < maxva → m₁.lookup pt a = none := by
      intro a ha
      rw [hu.lookup a ha]
      split
      · rfl
      · next hout =>
        by_cases hlow : a < trapframeVa
        · exact h.none (by omega) hlow
        · exact hhigh a (Nat.not_lt.mp hlow) ha
    have hbare := (hr.unmapped hu).bare hu.table hnone
    have hnodes : nodes m₁.link 2 pt = m.tables pt := hu.tables
    refine (freewalk_ensures (by decide) hbare hu.table.heap).post fun _ m' hrel => ?_
    refine ⟨hrel.heap, fun x => ?_, fun x hx => ?_⟩
    · rw [hrel.free, hu.free, hnodes, h.space_eq hsz, eq_self, true_and, or_assoc]
      exact or_congr_right or_comm
    · rw [h.space_eq hsz, not_or] at hx
      rw [hrel.others x (hnodes ▸ hx.1), hu.others x hx.1 fun hc => hx.2 hc.2]
  unfold uvmfree
  by_cases hpos : 0 < sz
  · rw [if_pos hpos]
    apply Ensures.bind
    have hpages := pgRoundUp_pages sz
    refine (uvmunmap_ensures h.table (Nat.zero_mod _) (by omega) true fun _ => ?_).post fun _ m₁ hu => ?_
    · rw [hpages]
      exact h.own.mono (Nat.le_refl 0) htop
    · rw [hpages] at hu
      exact hrest m₁ hu
  · have hzero : sz = 0 := by omega
    rw [if_neg hpos]
    exact hrest m (.empty h.table (by rw [hzero]; decide) true)

theorem UserPages.drop (h : UserPages m pt sz) (hlo : trapframeVa ≤ lo) (hu : Unmapped pt lo hi false m m') :
    UserPages m' pt sz ∧ (∀ x, x ∈ m'.space pt ↔ x ∈ m.space pt) ∧ (∀ x, x ∈ m'.free ↔ x ∈ m.free) ∧
      ∀ x, x ∉ m.tables pt → m'.page x = m.page x := by
  have hmax : trapframeVa ≤ maxva := by decide
  have hsame : ∀ b, b < trapframeVa → m'.lookup pt b = m.lookup pt b := fun b hb => by
    rw [hu.lookup b (by omega), if_neg (by omega)]
  have hfree : ∀ x, x ∈ m'.free ↔ x ∈ m.free := fun x => by
    rw [hu.free]
    exact or_iff_left fun hc => Bool.false_ne_true hc.1
  refine ⟨⟨hu.table, fun b e hb he => h.below b e hb (hsame b hb ▸ he), fun b e hb hb' he => ?_, ?_⟩, fun x => ?_,
    hfree, fun x hx => hu.others x hx fun hc => Bool.false_ne_true hc.1⟩
  · rw [hsame b hb'] at he
    rw [hu.tables, hfree]
    exact h.own.frame b e hb hb' he
  · intro b c e e' hb hb' hc hc' he he'
    rw [hsame b hb'] at he
    rw [hsame c hc'] at he'
    exact h.own.once b c e e' hb hb' hc hc' he he'
  · unfold Phys.space
    rw [Set.mem_ofPred_eq, Set.mem_ofPred_eq, hu.tables]
    refine or_congr_right ⟨?_, ?_⟩
    · rintro ⟨b, e, hb, hb', he, hx⟩
      exact ⟨b, e, hb, hb', hsame b hb' ▸ he, hx⟩
    · rintro ⟨b, e, hb, hb', he, hx⟩
      exact ⟨b, e, hb, hb', (hsame b hb').trans he, hx⟩

theorem procFreepagetable_ensures (h : UserPages m pt sz) (hr : Rooted m pt) (hsz : sz ≤ trapframeVa) :
    Completes (procFreepagetable pt sz) m (fun _ m' => Released (m.space pt) m m') := by
  have hone : ∀ va : Nat, va + 1 * pgsize = va + pgsize := fun va => by rw [Nat.one_mul]
  unfold procFreepagetable
  refine (uvmunmap_ensures h.table (by decide) (by decide) false nofun).seq fun _ m₁ hu₁ => ?_
  obtain ⟨h₁, hspace₁, hfree₁, hpages₁⟩ := h.drop (by decide) hu₁
  refine (uvmunmap_ensures hu₁.table (by decide) (by decide) false nofun).seq fun _ m₂ hu₂ => ?_
  obtain ⟨h₂, hspace₂, hfree₂, hpages₂⟩ := h₁.drop (by decide) hu₂
  have hhigh : ∀ a, trapframeVa ≤ a → a < maxva → m₂.lookup pt a = none := by
    intro a hlo hhi
    rw [hu₂.lookup a hhi, hu₁.lookup a hhi, hone, hone]
    have hpg : pgsize = 4096 := rfl
    have hmv : maxva = 2 ^ 38 := rfl
    have htf : trapframeVa = 2 ^ 38 - 8192 := rfl
    have htr : trampolineVa = 2 ^ 38 - 4096 := rfl
    by_cases hlow : a < trampolineVa
    · rw [if_pos (by omega)]
    · rw [if_neg (by omega), if_pos (by omega)]
  refine (uvmfree_ensures h₂ ((hr.unmapped hu₁).unmapped hu₂) hsz hhigh).post fun _ m' hrel => ?_
  refine ⟨hrel.heap, fun x => ?_, fun x hx => ?_⟩
  · rw [hrel.free, hfree₂, hfree₁, hspace₂, hspace₁]
  · have htab : x ∉ m.tables pt := fun hc => hx (.inl hc)
    rw [hrel.others x (by rwa [hspace₂, hspace₁]), hpages₂ x (hu₁.tables ▸ htab), hpages₁ x htab]

end Free

section Create

variable [Layout] {m m' m₁ m₂ : Phys} {pt a f hi lo : Nat} {p : Proc} {owned owned' freed : Set Nat}

structure Taken (owned : Set Nat) (m m' : Phys) : Prop where
  heap : FreeList m'
  free : ∀ x, x ∈ m.free ↔ x ∈ m'.free ∨ x ∈ owned
  apart : ∀ x ∈ owned, x ∉ m'.free
  others : ∀ x, x ∉ m.free → m'.page x = m.page x

theorem Taken.refl (h : FreeList m) : Taken ∅ m m :=
  ⟨h, fun _ => (or_iff_left (Set.notMem_empty _)).symm, fun _ hx => absurd hx (Set.notMem_empty _), fun _ _ => rfl⟩

theorem Taken.step (h : Taken owned m m₁) (heap : FreeList m₂) (hfree : ∀ x ∈ m₂.free, x ∈ m₁.free)
    (howned : ∀ x, x ∈ owned' ↔ x ∈ owned ∨ x ∈ m₁.free ∧ x ∉ m₂.free)
    (hothers : ∀ x, x ∉ owned → x ∉ m₁.free → m₂.page x = m₁.page x) : Taken owned' m m₂ := by
  refine ⟨heap, fun x => ?_, fun x hx => ?_, fun x hx => ?_⟩
  · rw [h.free, howned]
    constructor
    · rintro (hx | hx)
      · by_cases hx' : x ∈ m₂.free
        · exact .inl hx'
        · exact .inr (.inr ⟨hx, hx'⟩)
      · exact .inr (.inl hx)
    · rintro (hx | hx | hx)
      · exact .inl (hfree x hx)
      · exact .inr hx
      · exact .inl hx.1
  · obtain hx | hx := (howned x).mp hx
    · exact fun hc => h.apart x hx (hfree x hc)
    · exact hx.2
  · have hnot := mt (h.free x).mpr hx
    rw [not_or] at hnot
    rw [hothers x hnot.2 hnot.1, h.others x hx]

theorem Taken.release (h : Taken owned m m₁) (hr : Released freed m₁ m₂) (hsub : ∀ x ∈ freed, x ∈ owned)
    (howned : ∀ x, x ∈ owned' ↔ x ∈ owned ∧ x ∉ freed) : Taken owned' m m₂ := by
  refine ⟨hr.heap, fun x => ?_, fun x hx => ?_, fun x hx => ?_⟩
  · rw [h.free, hr.free, howned]
    by_cases hx : x ∈ freed
    · exact ⟨fun _ => .inl (.inr hx), fun _ => .inr (hsub x hx)⟩
    · exact ⟨fun hc => hc.imp .inl fun hc => ⟨hc, hx⟩, fun hc =>
        hc.elim (fun hc => .inl (hc.resolve_right hx)) fun hc => .inr hc.1⟩
  · obtain ⟨hx, hx'⟩ := (howned x).mp hx
    rw [hr.free, not_or]
    exact ⟨h.apart x hx, hx'⟩
  · have hnot := mt (h.free x).mpr hx
    rw [not_or] at hnot
    rw [hr.others x fun hc => hnot.2 (hsub x hc), h.others x hx]

theorem Taken.trans (h : Taken owned m m₁) (h' : Taken owned' m₁ m₂) : Taken (owned ∪ owned') m m₂ := by
  have hsub : ∀ x, x ∈ m₁.free → x ∈ m.free := fun x hx => (h.free x).mpr (.inl hx)
  refine ⟨h'.heap, fun x => ?_, fun x hx => ?_, fun x hx => ?_⟩
  · rw [h.free, h'.free, Set.mem_union, or_assoc, or_comm (a := x ∈ owned)]
  · obtain hx | hx := hx
    · exact fun hc => h.apart x hx ((h'.free x).mpr (.inl hc))
    · exact h'.apart x hx
  · rw [h'.others x fun hc => hx (hsub x hc), h.others x hx]

theorem kfree_released (hf : Frame f) (hnot : f ∉ m.free) (heap : FreeList m) :
    Completes (kfree f) m (fun _ m' => Released {f} m m') := by
  refine (kfree_ensures hf).post ?_
  rintro _ m' ⟨hfree, hpages⟩
  refine ⟨heap.cons hf hnot hfree, fun x => ?_, fun x hx => hpages x hx⟩
  rw [hfree, List.mem_cons, or_comm, Set.mem_singleton_iff]

theorem Taken.took (h : Taken owned m m₁) (ht : Took f m₁ m₂) : Taken (insert f owned) m m₂ := by
  obtain ⟨heap, hnot, -, hmem⟩ := h.heap.tail ht.free
  have hf : f ∈ m₁.free := by
    rw [ht.free]
    exact List.mem_cons_self
  refine h.step heap (fun x hx => ((hmem x).mp hx).1) (fun x => ?_) fun x _ hx => ?_
  · rw [Set.mem_insert_iff, or_comm]
    refine or_congr_right ⟨?_, fun ⟨hx, hx'⟩ => by_contra fun hc => hx' ((hmem x).mpr ⟨hx, hc⟩)⟩
    rintro rfl
    exact ⟨hf, hnot⟩
  · exact ht.pages x fun hc => hx (hc ▸ hf)

theorem Filled.space {lo hi : Nat} {want : Image} (h : Filled pt lo hi want m m') (hperm : want.Perms)
    (hhi : hi ≤ trapframeVa) (hnone : ∀ b, lo ≤ b → b < hi → m.lookup pt b = none) (x : Nat) :
    x ∈ m'.space pt ↔ x ∈ m.space pt ∨ x ∈ m.free ∧ x ∉ m'.free := by
  have hmax : trapframeVa ≤ maxva := by decide
  constructor
  · rintro (hx | ⟨b, e, hb, hb', he, hx⟩)
    · obtain hx | hx := (h.tables x).mp hx
      · exact .inl (.inl hx)
      · exact .inr ⟨hx.1, hx.2.1⟩
    · by_cases hin : lo ≤ b ∧ b < hi
      · obtain ⟨-, hfree, hnot, -⟩ := h.mapsTo hperm ⟨b, e, hin.1, hin.2, he, hx⟩
        exact .inr ⟨hfree, hnot⟩
      · rw [h.lookup b (by omega) hin] at he
        exact .inl (.inr ⟨b, e, hb, hb', he, hx⟩)
  · rintro ((hx | ⟨b, e, hb, hb', he, hx⟩) | ⟨hx, hx'⟩)
    · exact .inl ((h.tables x).mpr (.inl hx))
    · have hout : ¬ (lo ≤ b ∧ b < hi) := by
        intro hin
        rw [hnone b hin.1 hin.2] at he
        exact absurd he (by simp)
      exact .inr ⟨b, e, hb, hb', (h.lookup b (by omega) hout).trans he, hx⟩
    · by_cases hm : m'.MapsTo pt lo hi x
      · obtain ⟨b, e, hb, hb', he, hx⟩ := hm
        exact .inr ⟨b, e, Nat.zero_le b, by omega, he, hx⟩
      · exact .inl ((h.tables x).mpr (.inr ⟨hx, hx', hm⟩))

theorem Taken.filled {want : Image} (h : Taken (owned ∪ m₁.space pt) m m₁)
    (hf : Filled pt lo hi want m₁ m₂) (hperm : want.Perms) (hhi : hi ≤ trapframeVa)
    (hnone : ∀ b, lo ≤ b → b < hi → m₁.lookup pt b = none) : Taken (owned ∪ m₂.space pt) m m₂ := by
  refine h.step hf.table.heap hf.free (fun x => ?_) fun x hx hfree => ?_
  · rw [Set.mem_union, hf.space hperm hhi hnone, ← or_assoc, Set.mem_union]
  · exact hf.others x (fun hc => hx (.inr (.inl hc))) hfree

theorem userPages_bare (ht : Table m pt) (hnone : ∀ b, b < trapframeVa → m.lookup pt b = none) :
    (∀ sz, UserPages m pt sz) ∧ m.space pt = m.tables pt := by
  have hno : ∀ b e, b < trapframeVa → m.lookup pt b ≠ some e := fun b e hb he => by
    rw [hnone b hb] at he
    exact absurd he (by simp)
  refine ⟨fun _ => ⟨ht, fun b e hb he => absurd he (hno b e hb), ⟨fun b e _ hb he => absurd he (hno b e hb),
    fun b c e e' _ hb _ _ he => absurd he (hno b e hb)⟩⟩, ?_⟩
  ext x
  refine or_iff_left ?_
  rintro ⟨b, e, -, hb, he, -⟩
  exact hno b e hb he

/-- A page table has been made from free pages, with no user memory. -/
structure Fresh (pt : Nat) (m m' : Phys) : Prop where
  table : Table m' pt
  empty : ∀ b, b < trapframeVa → m'.lookup pt b = none
  rooted : Rooted m' pt
  taken : Taken (m'.tables pt) m m'

theorem Fresh.grown (h : Fresh pt m m₁) (hg : Grown pt m₁ m₂)
    (hnone : ∀ b, b < trapframeVa → m₂.lookup pt b = none) : Fresh pt m m₂ := by
  refine ⟨hg.table, hnone, h.rooted.grown h.table.heap hg, ?_⟩
  exact h.taken.step hg.table.heap hg.free hg.tables hg.others

theorem Fresh.drop (h : Fresh pt m m₁) (hlo : trapframeVa ≤ lo) (hu : Unmapped pt lo hi false m₁ m₂) :
    Fresh pt m m₂ := by
  obtain ⟨-, -, hfree, hpages⟩ := ((userPages_bare h.table h.empty).1 0).drop hlo hu
  have hmax : trapframeVa ≤ maxva := by decide
  refine ⟨hu.table, fun b hb => ?_, h.rooted.unmapped hu, ?_⟩
  · rw [hu.lookup b (by omega), if_neg (by omega), h.empty b hb]
  · refine h.taken.step hu.table.heap (fun x => (hfree x).mp) (fun x => ?_) fun x hx _ => hpages x hx
    rw [hu.tables, hfree]
    exact (or_iff_left fun hc => hc.2 hc.1).symm

theorem Fresh.undo (h : Fresh pt m m₁) (hhigh : ∀ a, trapframeVa ≤ a → a < maxva → m₁.lookup pt a = none) :
    Completes (uvmfree pt 0) m₁ (fun _ m' => Taken ∅ m m') := by
  obtain ⟨huser, hspace⟩ := userPages_bare h.table h.empty
  refine (uvmfree_ensures (huser 0) h.rooted (Nat.zero_le _) hhigh).post fun _ m' hrel => ?_
  rw [hspace] at hrel
  refine h.taken.release hrel (fun x hx => hx) fun x => ?_
  exact iff_of_false (Set.notMem_empty x) fun hc => hc.2 hc.1

theorem uvmcreate_ensures (heap : FreeList m) :
    Completes uvmcreate m (fun r m' => (r = none ∧ Taken ∅ m m') ∨ ∃ pt, r = some pt ∧ Fresh pt m m' ∧
      (∀ b, b < maxva → m'.lookup pt b = none) ∧ Frame pt) := by
  unfold uvmcreate
  refine (kalloc_took m).seq ?_
  rintro r m₁ (⟨rfl, hfree, hpage⟩ | ⟨f, rfl, htook⟩)
  · have heap₁ : FreeList m₁ := ⟨hfree ▸ heap.nodup, hfree ▸ heap.frame⟩
    refine .pure (.inl ⟨rfl, heap₁, fun x => ?_, fun x hx => absurd hx (Set.notMem_empty x), fun x _ => ?_⟩)
    · rw [hfree]
      exact (or_iff_left (Set.notMem_empty x)).symm
    · rw [hpage]
  · apply Ensures.bind_modify
    refine .pure (.inr ⟨f, rfl, ?_⟩)
    have htook' : Took f m (m₁.fill f 0) := htook.setPage fun _ => 0
    have hzero : (m₁.fill f 0).page f = fun _ => 0 := m₁.setPage_page_self f fun _ => 0
    obtain ⟨heap', hnot, hframe, -⟩ := heap.tail htook'.free
    obtain ⟨htable, htables, hnone⟩ := Table.empty hzero hnot heap'
    have htaken := (Taken.refl heap).took htook'
    rw [← Set.singleton_union, Set.union_empty, ← htables] at htaken
    refine ⟨⟨htable, fun b hb => hnone b (hb.trans (by decide)), ⟨fun x hx => ?_, fun i _ => ?_⟩, htaken⟩,
      hnone, hframe⟩
    · rw [htables] at hx
      exact Set.mem_singleton_iff.mp hx ▸ hframe
    · rw [Phys.word_of_zero hzero, has_zero]

def Creates (tf : Nat) (m : Phys) (r : Option Nat) (m' : Phys) : Prop :=
  (r = none ∧ Taken ∅ m m') ∨ ∃ pt, r = some pt ∧ Fresh pt m m' ∧
    m'.lookup pt trampolineVa = some (entry trampoline (pteR ||| pteX)) ∧
    m'.lookup pt trapframeVa = some (entry tf (pteR ||| pteW))

theorem procPagetable_ensures (p : Proc) (heap : FreeList m) (htf : p.trapframe < 2 ^ 64) :
    Completes (procPagetable p) m (Creates p.trapframe m) := by
  have hpg : pgsize = 4096 := rfl
  have hmv : maxva = 2 ^ 38 := rfl
  have htfv : trapframeVa = 2 ^ 38 - 8192 := rfl
  have htrv : trampolineVa = 2 ^ 38 - 4096 := rfl
  unfold procPagetable
  refine (uvmcreate_ensures heap).seq ?_
  rintro r m₁ (⟨rfl, htaken⟩ | ⟨pt, rfl, h₁, hnone₁, hframe⟩)
  · exact .pure (.inl ⟨rfl, htaken⟩)
  · have htr : trampoline < 2 ^ 64 := by
      have hend : trampoline + pgsize ≤ kend := Layout.trampoline_end
      have hlow := hframe.low
      have hlt := hframe.lt
      omega
    refine (mappages_one h₁.table (by decide) (by decide) htr (by decide) (hnone₁ _ (by decide))).seq ?_
    rintro r m₂ (⟨rfl, hgrown, hmap₂⟩ | ⟨rfl, hdeep⟩)
    · have hnone₂ : ∀ b, b < trampolineVa → m₂.lookup pt b = none := by
        intro b hb
        rw [hmap₂ b (by omega), if_neg (by rw [hpg]; omega), hnone₁ b (by omega)]
      have h₂ : Fresh pt m m₂ := h₁.grown hgrown fun b hb => hnone₂ b (by omega)
      rw [if_neg (by decide)]
      refine (mappages_one h₂.table (by decide) (by decide) htf (by decide) (hnone₂ _ (by decide))).seq ?_
      rintro r m₃ (⟨rfl, hgrown', hmap₃⟩ | ⟨rfl, hdeep⟩)
      · rw [if_neg (by decide)]
        refine .pure (.inr ⟨pt, rfl, h₂.grown hgrown' fun b hb => ?_, ?_, ?_⟩)
        · rw [hmap₃ b (by omega), if_neg (by rw [hpg]; omega), hnone₂ b (by omega)]
        · rw [hmap₃ _ (by decide), if_neg (by decide), hmap₂ _ (by decide), if_pos rfl]
        · rw [hmap₃ _ (by decide), if_pos rfl]
      · have h₃ : Fresh pt m m₃ := h₂.grown hdeep.toGrown fun b hb => by
          rw [hdeep.lookup b (by omega), hnone₂ b (by omega)]
        rw [if_pos (by decide)]
        refine (uvmunmap_ensures h₃.table (by decide) (by decide) false nofun).seq fun _ m₄ hu => ?_
        refine ((h₃.drop (by decide) hu).undo fun a hlo ha => ?_).seq fun _ m₅ htaken =>
          .pure (.inl ⟨rfl, htaken⟩)
        rw [hu.lookup a ha, hdeep.lookup a ha, Nat.one_mul]
        by_cases hlow : a < trampolineVa
        · rw [if_neg (by omega), hnone₂ a hlow]
        · rw [if_pos (by omega)]
    · have h₂ : Fresh pt m m₂ := h₁.grown hdeep.toGrown fun b hb => by
        rw [hdeep.lookup b (by omega), hnone₁ b (by omega)]
      rw [if_pos (by decide)]
      refine (h₂.undo fun a _ ha => ?_).seq fun _ m₃ htaken => .pure (.inl ⟨rfl, htaken⟩)
      rw [hdeep.lookup a ha, hnone₁ a ha]

theorem Fresh.procSpace {sz tf : Nat} (h : Fresh pt m m')
    (hcode : m'.lookup pt trampolineVa = some (entry trampoline (pteR ||| pteX)))
    (hframe : m'.lookup pt trapframeVa = some (entry tf (pteR ||| pteW))) (htf : Frame tf) (hused : tf ∉ m.free)
    (hsz : sz ≤ trapframeVa) : ProcSpace m' ⟨pt, sz, tf⟩ := by
  have hnot := mt (h.taken.free tf).mpr hused
  rw [not_or] at hnot
  refine ⟨(userPages_bare h.table h.empty).1 sz, hsz, hcode, hframe, ⟨htf, hnot.2, hnot.1⟩, fun a e ha he => ?_⟩
  rw [h.empty a ha] at he
  exact absurd he (by simp)

end Create

def freshPages (n : Nat) : Phys := ⟨fun _ _ => 0, (List.range n).map fun i => 0x80023000 + i * pgsize, []⟩

theorem freshPages_freeList (n : Nat) (hn : n ≤ 100) : @FreeList smallLayout (freshPages n) := by
  have hpg : pgsize = 4096 := rfl
  refine @FreeList.mk smallLayout _ (List.Nodup.map_on ?_ List.nodup_range) fun p hp => ?_
  · intro i _ j _ hij
    rw [hpg] at hij
    omega
  · obtain ⟨i, hi, rfl⟩ := List.mem_map.mp hp
    have hi := List.mem_range.mp hi
    have hend : @kend smallLayout = 0x80022000 := rfl
    have htop : phystop = 0x88000000 := rfl
    refine @Frame.mk smallLayout _ ?_ ?_ ?_
    · rw [hpg]
      omega
    · rw [hend]
      omega
    · rw [hpg, htop]
      omega

/-- The memory of a process whose trapframe is at `0x80022000`, when there were `n` more pages. -/
def procPhys (n : Nat) : Phys :=
  match @procPagetable smallLayout ⟨0, 0, 0x80022000⟩ (freshPages n) with
  | .ok _ m => m
  | .error _ m => m

theorem procPhys_space (n : Nat) (hn : n ≤ 100)
    (hrun : Completes (@procPagetable smallLayout ⟨0, 0, 0x80022000⟩) (freshPages n)
      (fun r _ => r = some 0x80023000)) :
    @ProcSpace smallLayout (procPhys n) ⟨0x80023000, pgsize, 0x80022000⟩ := by
  have heap := freshPages_freeList n hn
  have hspec := @procPagetable_ensures smallLayout (freshPages n) ⟨0, 0, 0x80022000⟩ heap (by decide)
  have hused : 0x80022000 ∉ (freshPages n).free := by
    intro hc
    obtain ⟨i, -, hi⟩ := List.mem_map.mp hc
    omega
  unfold procPhys
  cases hm : @procPagetable smallLayout ⟨0, 0, 0x80022000⟩ (freshPages n) with
  | error e m => exact (hrun.error hm).elim
  | ok r m =>
    have hr := hrun.ok hm
    obtain ⟨hnone, -⟩ | ⟨pt, hpt, hfresh, hcode, hframe⟩ := hspec.ok hm
    · rw [hnone] at hr
      exact absurd hr (by simp)
    · obtain rfl : pt = 0x80023000 := Option.some.inj (hpt.symm.trans hr)
      refine @Fresh.procSpace smallLayout _ _ _ _ _ hfresh hcode hframe ?_ hused (by decide)
      exact @Frame.mk smallLayout _ (by decide) (by decide) (by decide)

end Xv6.Vm
