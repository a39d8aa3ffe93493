import Xv6.UserSpace

namespace Xv6.Vm

open Xv6.Lib Xv6.Lib.Radix

section

variable [Layout] {m m' m'' : Phys} {p : Proc} {new i sz : Nat}

/-- The user memory of a process as it is to be copied. -/
def Phys.image (m : Phys) (pt : Nat) : Image := fun b => (m.lookup pt b).map fun e => (pteFlags e, m.page (pte2pa e))

omit [Layout] in
theorem image_perms (m : Phys) (pt : Nat) : (m.image pt).Perms := by
  intro b perm bytes h
  obtain ⟨e, -, he⟩ := Option.map_eq_some_iff.mp h
  rw [← (Prod.mk.inj he).1, pteFlags_eq]
  exact Nat.mod_lt _ (by decide)

omit [Layout] in
theorem image_page (m : Phys) (pt : Nat) {a b : Nat} (h : a / pgsize = b / pgsize) :
    m.image pt a = m.image pt b := by
  rw [Phys.image, Phys.image, lookup_same m pt h]

structure Separate (m : Phys) (p : Proc) (new : Nat) : Prop where
  tables : ∀ x ∈ m.tables p.pagetable, x ∉ m.tables new
  pages : ∀ b e, b < trapframeVa → m.lookup p.pagetable b = some e → pte2pa e ∉ m.tables new

theorem Filled.source {lo hi : Nat} {want : Image} (h : Filled new lo hi want m m') (hp : ProcSpace m p)
    (hs : Separate m p new) :
    (∀ b, b < maxva → m'.lookup p.pagetable b = m.lookup p.pagetable b) ∧
      ∀ b e, b < trapframeVa → m.lookup p.pagetable b = some e →
        pte2pa e ∉ m.free ∧ m'.page (pte2pa e) = m.page (pte2pa e) := by
  refine ⟨fun b hb => lookup_congr hb fun x hx => h.others x (hs.tables x hx) (hp.table.used x hx),
    fun b e hb he => ?_⟩
  obtain ⟨-, -, hused⟩ := hp.own.frame b e (Nat.zero_le b) hb he
  exact ⟨hused, h.others _ (hs.pages b e hb he) hused⟩

/-- What `uvmcopy` does: the whole memory is there a second time, or only the table has grown. -/
def Copies (p : Proc) (new : Nat) (m : Phys) (r : Int) (m' : Phys) : Prop :=
  (r = 0 ∧ Filled new 0 (pgRoundUp p.sz) (m.image p.pagetable) m m') ∨ r = -1 ∧ Deepened new m m'

theorem unmap_copied (h : Filled new 0 i (m.image p.pagetable) m m') (hi : i % pgsize = 0) (hmax : i ≤ trapframeVa)
    (hnone : ∀ b, b < trapframeVa → m.lookup new b = none) {m₁ : Phys} (hdeep : Deepened new m' m₁) :
    Completes (do uvmunmap new 0 (i / pgsize) true; return (-1 : Int)) m₁ (Copies p new m) := by
  have htop : trapframeVa ≤ maxva := by decide
  have hperms := image_perms m p.pagetable
  have hdeep' := h.deepen hperms (by omega) hdeep
  have hend : 0 + i / pgsize * pgsize = i := by
    rw [Nat.zero_add, Nat.div_mul_cancel (Nat.dvd_of_mod_eq_zero hi)]
  refine (uvmunmap_ensures hdeep'.table (Nat.zero_mod _) (by omega) true fun _ => ?_).seq fun _ m₂ hu => ?_
  · rw [hend]
    exact hdeep'.releasable hperms
  · rw [hend] at hu
    exact .pure (.inr ⟨rfl, hdeep'.undo hperms (fun b _ hb => hnone b (by omega)) hu⟩)

theorem copyLoop_ensures (rounds : Nat) (hp : ProcSpace m p) (hs : Separate m p new)
    (h : Filled new 0 i (m.image p.pagetable) m m') (hi : i % pgsize = 0) (hrounds : p.sz ≤ i + rounds * pgsize)
    (hend : i < p.sz + pgsize) (hnone : ∀ b, b < trapframeVa → m.lookup new b = none) :
    Completes (copyLoop p.pagetable new p.sz rounds i) m' (Copies p new m) := by
  have hpg : pgsize = 4096 := rfl
  have htf : trapframeVa = 2 ^ 38 - 8192 := rfl
  have hmv : maxva = 2 ^ 38 := rfl
  have hsize := hp.size
  have hperms := image_perms m p.pagetable
  have hdone : p.sz ≤ i → pgRoundUp p.sz = i := fun hle => pgRoundUp_unique (by omega) hle hend hi
  induction rounds generalizing m' i with
  | zero =>
    refine .pure (.inl ⟨rfl, ?_⟩)
    rw [hdone (by omega)]
    exact h
  | succ rounds ih =>
    rw [copyLoop]
    split
    · next hlt =>
      have hroom : i + pgsize ≤ trapframeVa := by
        rw [hpg] at hi ⊢
        omega
      have hmax : i < maxva := by omega
      have hpage : ∀ b, i ≤ b → b < i + pgsize → b / pgsize = i / pgsize := fun b hb hb' =>
        (page_iff hi b).mp ⟨hb, hb'⟩
      have hal : (i + pgsize) % pgsize = 0 := by rw [Nat.add_mod_right, hi]
      obtain ⟨hlookup, hkept⟩ := h.source hp hs
      have hnext : ∀ m₁, Filled new 0 (i + pgsize) (m.image p.pagetable) m m₁ →
          Completes (copyLoop p.pagetable new p.sz rounds (i + pgsize)) m₁ (Copies p new m) := by
        intro m₁ h₁
        refine ih h₁ hal ?_ ?_ fun hle => pgRoundUp_unique (by omega) hle (by omega) hal
        · rw [Nat.succ_mul] at hrounds
          omega
        · omega
      have hskip : m.lookup p.pagetable i = none →
          Completes (copyLoop p.pagetable new p.sz rounds (i + pgsize)) m' (Copies p new m) := by
        intro hi'
        refine hnext m' (h.skip (by omega) (fun b hb hb' => ?_) fun b hb hb' => hnone b (by omega))
        rw [image_page m _ (hpage b hb hb'), Phys.image, hi']
        rfl
      refine Ensures.bind_eq (readPte_eq m' p.pagetable hmax) ?_
      cases ht : node m'.link p.pagetable (path i) with
      | none =>
        refine hskip ?_
        rw [← hlookup i hmax, lookup_eq m' _ hmax, ht]
        rfl
      | some t =>
        have hentry := lookup_of_node hmax ht
        rw [hlookup i hmax] at hentry
        obtain ⟨e, he⟩ : ∃ e, e = m'.word t (px 0 i) := ⟨_, rfl⟩
        dsimp only [Option.map_some]
        rw [← he] at hentry ⊢
        by_cases hv : has e pteV = false
        · rw [if_pos hv]
          rw [if_neg (Bool.eq_false_iff.mp hv)] at hentry
          exact hskip hentry
        · rw [if_neg hv]
          rw [if_pos (Bool.not_eq_false _ ▸ hv)] at hentry
          obtain ⟨hused, hsource⟩ := hkept i e (by omega) hentry
          refine (kalloc_took m').seq ?_
          rintro r m₁ (⟨rfl, hfree, hpages⟩ | ⟨f, rfl, htook⟩)
          · exact unmap_copied h hi (by omega) hnone (.of_same h.table hfree hpages)
          · apply Ensures.bind_modify
            have htook' := htook.setPage (m₁.page (pte2pa e))
            obtain ⟨htable, -, hsame, hframe, hf, -, -, -⟩ := htook'.table h.table
            have hbytes : (m₁.setPage f (m₁.page (pte2pa e))).page f = m.page (pte2pa e) := by
              have hne : pte2pa e ≠ f := fun hc => hused (hc ▸ h.free f hf)
              rw [Phys.setPage_page_self, htook.pages _ hne, hsource]
            have hwant : ∀ b, i ≤ b → b < i + pgsize →
                m.image p.pagetable b = some (pteFlags e, m.page (pte2pa e)) := by
              intro b hb hb'
              rw [image_page m _ (hpage b hb hb'), Phys.image, hentry]
              rfl
            have hunmapped : (m₁.setPage f (m₁.page (pte2pa e))).lookup new i = none := by
              rw [hsame i hmax, h.lookup i hmax (by omega), hnone i (by omega)]
            have hperm := hperms i _ _ (hwant i (Nat.le_refl i) (by rw [hpg]; omega))
            refine (mappages_one htable hi (by omega) hframe.lt hperm hunmapped).seq ?_
            rintro r m₂ (⟨rfl, hgrown, hmapped⟩ | ⟨rfl, hdeep⟩)
            · rw [if_neg (not_not.mpr rfl)]
              exact hnext m₂ (h.step (Nat.zero_le i) hi (by omega) hperms hwant htook' hbytes hgrown hmapped)
            · rw [if_pos (by decide)]
              refine (kfree_ensures hframe).seq ?_
              rintro _ m₃ ⟨hfree, hpages⟩
              exact unmap_copied h hi (by omega) hnone (.give_back h.table htook' hdeep hfree hpages)
    · next hlt =>
      refine .pure (.inl ⟨rfl, ?_⟩)
      rw [hdone (by omega)]
      exact h

theorem uvmcopy_ensures (hp : ProcSpace m p) (hs : Separate m p new) (ht : Table m new)
    (hnone : ∀ b, b < trapframeVa → m.lookup new b = none) :
    Completes (uvmcopy p.pagetable new p.sz) m (Copies p new m) := by
  have hpg : pgsize = 4096 := rfl
  refine copyLoop_ensures _ hp hs (.refl ht (Nat.le_refl 0)) (Nat.zero_mod _) ?_ ?_ hnone
  · rw [hpg]
    omega
  · rw [hpg]
    omega

theorem ProcSpace.taken {owned : Set Nat} (hp : ProcSpace m p) (ht : Taken owned m m') :
    ProcSpace m' p ∧ (∀ b, m'.lookup p.pagetable b = m.lookup p.pagetable b) ∧
      m'.tables p.pagetable = m.tables p.pagetable :=
  hp.congr (fun x hx => ht.others x (hp.table.used x hx)) ht.heap fun x hx => (ht.free x).mpr (.inl hx)

theorem ProcSpace.image_taken {owned : Set Nat} (hp : ProcSpace m p) (ht : Taken owned m m') {b : Nat}
    (hb : b < trapframeVa) : m'.image p.pagetable b = m.image p.pagetable b := by
  unfold Phys.image
  rw [(hp.taken ht).2.1]
  cases he : m.lookup p.pagetable b with
  | none => rfl
  | some e =>
    have hused := (hp.own.frame b e (Nat.zero_le b) hb he).2.2
    rw [Option.map_some, Option.map_some, ht.others _ hused]

omit [Layout] in
theorem pteFlags_valid {e : Nat} (h : has e pteV = true) : pteFlags e ||| pteV = pteFlags e := by
  rw [← has_pteFlags e (by decide), has, bne_iff_ne] at h
  apply Nat.eq_of_testBit_eq
  intro j
  rw [Nat.testBit_or]
  obtain rfl | hj := eq_or_ne j 0
  · have hodd : pteFlags e % 2 = 1 := by
      rw [pteV, Nat.and_one_is_mod] at h
      omega
    rw [Nat.testBit_zero, hodd]
    rfl
  · have hone : pteV.testBit j = false := Nat.testBit_lt_two_pow (Nat.one_lt_two_pow hj)
    rw [hone, Bool.or_false]

theorem Filled.image_eq (hp : ProcSpace m p) (hnone : ∀ b, b < trapframeVa → m.lookup new b = none)
    (h : Filled new 0 (pgRoundUp p.sz) (m.image p.pagetable) m m') {b : Nat} (hb : b < trapframeVa) :
    m'.image new b = m.image p.pagetable b := by
  have htop : trapframeVa ≤ maxva := by decide
  by_cases hlow : b < pgRoundUp p.sz
  · cases he : m.lookup p.pagetable b with
    | none =>
      have hwant : m.image p.pagetable b = none := by rw [Phys.image, he]; rfl
      rw [hwant, Phys.image, h.absent b (Nat.zero_le b) hlow hwant]
      rfl
    | some e =>
      have hwant : m.image p.pagetable b = some (pteFlags e, m.page (pte2pa e)) := by rw [Phys.image, he]; rfl
      have hperm := image_perms m p.pagetable b _ _ hwant
      obtain ⟨f, hf, hframe, -, -, -, hbytes⟩ := h.fresh b _ _ (Nat.zero_le b) hlow hwant
      have hv := pteFlags_valid (lookup_valid (lookup_lt he) he)
      rw [hwant, Phys.image, hf, Option.map_some, entry_flags f hperm, hframe.entry_pa hperm, hbytes, hv]
  · rw [Phys.image, h.lookup b (by omega) (by omega), hnone b hb, Phys.image,
      hp.none (Nat.not_lt.mp hlow) hb]
    rfl

theorem view_of_image {q : Proc} (hp : ProcSpace m p) (hq : ProcSpace m' q)
    (h : ∀ b, b < trapframeVa → m'.image q.pagetable b = m.image p.pagetable b) (a : Nat) :
    m'.view q.pagetable a = m.view p.pagetable a := by
  by_cases ha : a < trapframeVa
  · have himage := h a ha
    unfold Phys.image at himage
    cases he : m.lookup p.pagetable a with
    | none =>
      rw [he] at himage
      have he' : m'.lookup q.pagetable a = none := Option.map_eq_none_iff.mp himage
      rw [view_of_none (by rw [Phys.user, he']; rfl), view_of_none (by rw [Phys.user, he]; rfl)]
    | some e =>
      rw [he] at himage
      obtain ⟨e', he', hsame⟩ := Option.map_eq_some_iff.mp himage
      obtain ⟨hflags, hbytes⟩ := Prod.mk.inj hsame
      have hu : has e' pteU = has e pteU := by
        rw [← has_pteFlags e' (by decide), ← has_pteFlags e (by decide), hflags]
      cases hflag : has e pteU with
      | true =>
        rw [view_of_user (hq.user_of_lookup he' (hu.trans hflag)), view_of_user (hp.user_of_lookup he hflag), hbytes]
      | false =>
        have hn : m.user p.pagetable a = none := by
          rw [Phys.user, he, Option.bind_some, hflag]
          exact if_neg fun hc => Bool.false_ne_true hc.1
        have hn' : m'.user q.pagetable a = none := by
          rw [Phys.user, he', Option.bind_some, hu, hflag]
          exact if_neg fun hc => Bool.false_ne_true hc.1
        rw [view_of_none hn', view_of_none hn]
  · have hn : ∀ {m : Phys} {p : Proc}, ProcSpace m p → m.user p.pagetable a = none := by
      intro m p hp
      cases hu : m.user p.pagetable a with
      | none => rfl
      | some f => exact absurd (hp.user_below hu) ha
    rw [view_of_none (hn hq), view_of_none (hn hp)]

end

end Xv6.Vm
