import Mathlib.Data.List.Perm.Subperm
import Xv6.PageMap

namespace Xv6.Vm

open Xv6.Lib Xv6.Lib.Radix

section Rounding

variable {a sz : Nat}

theorem pgRoundUp_eq (h : sz ≤ maxva) : pgRoundUp sz = (sz + 4095) / 4096 * 4096 := by
  have hmax : maxva = 2 ^ 38 := rfl
  rw [pgRoundUp, pgsize]
  omega

theorem pgRoundUp_le (h : sz ≤ trapframeVa) : pgRoundUp sz ≤ trapframeVa := by
  have htf : trapframeVa = 2 ^ 38 - 8192 := rfl
  rw [pgRoundUp_eq (h.trans (by decide))]
  omega

theorem pgRoundUp_aligned (sz : Nat) : pgRoundUp sz % pgsize = 0 := Nat.mul_mod_left _ _

theorem pgRoundUp_of_aligned (h : a ≤ maxva) (ha : a % pgsize = 0) : pgRoundUp a = a := by
  rw [pgRoundUp_eq h]
  rw [pgsize] at ha
  omega

end Rounding

section

variable [Layout] {m m' m'' : Phys} {pt a lo hi perm f newsz oldsz sz x xperm : Nat}

structure Took (f : Nat) (m m' : Phys) : Prop where
  free : m.free = f :: m'.free
  pages : ∀ x, x ≠ f → m'.page x = m.page x

omit [Layout] in
theorem Took.setPage (h : Took f m m') (bytes : Nat → UInt8) : Took f m (m'.setPage f bytes) :=
  ⟨h.free, fun x hx => (Phys.setPage_page_ne m' bytes hx).trans (h.pages x hx)⟩

theorem Took.table (h : Took f m m') (ht : Table m pt) :
    Table m' pt ∧ m'.tables pt = m.tables pt ∧ (∀ b, b < maxva → m'.lookup pt b = m.lookup pt b) ∧
      Frame f ∧ f ∈ m.free ∧ f ∉ m'.free ∧ f ∉ m.tables pt ∧ ∀ x, x ∈ m'.free ↔ x ∈ m.free ∧ x ≠ f := by
  obtain ⟨heap, hnot, hframe, hmem⟩ := ht.heap.tail h.free
  have hf : f ∈ m.free := by
    rw [h.free]
    exact List.mem_cons_self
  have hftab : f ∉ m.tables pt := fun hc => ht.used f hc hf
  have hpages : ∀ x ∈ m.tables pt, m'.page x = m.page x := fun x hx => h.pages x fun he => hftab (he ▸ hx)
  have hused : ∀ x ∈ m.tables pt, x ∉ m'.free := fun x hx hc => ht.used x hx ((hmem x).mp hc).1
  obtain ⟨htable, htables⟩ := ht.congr hpages hused heap
  exact ⟨htable, htables, fun b hb => lookup_congr hb hpages, hframe, hf, hnot, hftab, hmem⟩

omit [Layout] in
theorem kalloc_took (m : Phys) {E : String → Phys → Prop} :
    Ensures kalloc m (fun r m' => (r = none ∧ m'.free = m.free ∧ m'.page = m.page) ∨
      ∃ f, r = some f ∧ Took f m m') E := by
  refine (kalloc_ensures m).post ?_
  rintro r m' (h | ⟨f, hr, hfree, hpages⟩)
  · exact .inl h
  · exact .inr ⟨f, hr, hfree, hpages⟩

theorem Deepened.of_same (h : Table m pt) (hfree : m'.free = m.free) (hpage : m'.page = m.page) :
    Deepened pt m m' := by
  have hsame : ∀ x, m'.page x = m.page x := congrFun hpage
  have heap : FreeList m' := ⟨hfree ▸ h.heap.nodup, hfree ▸ h.heap.frame⟩
  obtain ⟨htable, htables⟩ := h.congr (fun x _ => hsame x) (hfree ▸ h.used) heap
  refine ⟨⟨htable, fun x hx => hfree ▸ hx, fun x => ?_, fun x _ _ => hsame x,
    fun i _ => Phys.word_congr (hsame pt) i⟩, fun b hb => ?_⟩
  · rw [htables, hfree]
    exact (or_iff_left fun hx => hx.2 hx.1).symm
  · exact lookup_congr hb fun x _ => hsame x

theorem mappages_one {pa : Nat} (h : Table m pt) (ha : a % pgsize = 0) (hmax : a + pgsize ≤ maxva)
    (hpa : pa < 2 ^ 64) (hperm : perm < 2 ^ 10) (hnone : m.lookup pt a = none) :
    Completes (mappages pt a pgsize pa perm) m
      (fun r m' => (r = 0 ∧ Grown pt m m' ∧ ∀ b, b < maxva →
        m'.lookup pt b = if b / pgsize = a / pgsize then some (entry pa perm) else m.lookup pt b) ∨
        r = -1 ∧ Deepened pt m m') := by
  have hpg : pgsize = 4096 := rfl
  have hpage := page_iff ha
  have hfree : ∀ b, a ≤ b → b < a + pgsize → m.lookup pt b = none := fun b hlo hhi => by
    rw [lookup_page m pt (by omega) (by omega) ((hpage b).mp ⟨hlo, hhi⟩), hnone]
  refine (mappages_ensures h ha (Nat.mod_self _) (by decide) hmax hpa hperm hfree).post ?_
  rintro r m' ⟨k, ⟨rfl, rfl⟩ | ⟨rfl, hk⟩, hgrown, hmapped⟩
  · refine .inl ⟨rfl, hgrown, fun b hb => ?_⟩
    have hone : pgsize / pgsize = 1 := by decide
    rw [hmapped b hb, Phys.mapped, hone, Nat.one_mul]
    by_cases hin : b / pgsize = a / pgsize
    · have hzero : (b - a) / pgsize = 0 := by
        rw [hpg] at ha hin ⊢
        omega
      rw [if_pos hin, if_pos ((hpage b).mpr hin), hzero, Nat.zero_mul, Nat.add_zero, Nat.mod_eq_of_lt hpa]
    · rw [if_neg hin, if_neg (mt (hpage b).mp hin)]
  · have hzero : k = 0 := by
      rw [hpg] at hk
      omega
    refine .inr ⟨rfl, hgrown, fun b hb => ?_⟩
    rw [hmapped b hb, hzero, m.mapped_zero]

theorem Frame.lt (h : Frame f) : f < 2 ^ 64 := h.high.trans (by decide)

theorem Frame.entry_pa (h : Frame f) (hperm : perm < 2 ^ 10) : pte2pa (entry f perm) = f :=
  entry_pa_of_aligned h.lt h.aligned hperm

theorem Deepened.give_back {m₂ m₃ : Phys} (h : Table m pt) (htook : Took f m m₂) (hdeep : Deepened pt m₂ m₃)
    (hfree : m'.free = f :: m₃.free) (hpages : ∀ x, x ≠ f → m'.page x = m₃.page x) : Deepened pt m m' := by
  obtain ⟨ht₂, htables, hlookup, hframe, hf, hnot, hftab, hmem⟩ := htook.table h
  have hf₃ : f ∉ m₃.free := fun hc => hnot (hdeep.free f hc)
  have hftab₃ : f ∉ m₃.tables pt := hdeep.notMem_tables (htables ▸ hftab) hnot
  have hmem' : ∀ x, x ∈ m'.free ↔ x = f ∨ x ∈ m₃.free := fun x => by rw [hfree, List.mem_cons]
  have hsame : ∀ x ∈ m₃.tables pt, m'.page x = m₃.page x := fun x hx => hpages x fun he => hftab₃ (he ▸ hx)
  have hused : ∀ x ∈ m₃.tables pt, x ∉ m'.free := by
    intro x hx hc
    obtain rfl | hc := (hmem' x).mp hc
    · exact hftab₃ hx
    · exact hdeep.table.used x hx hc
  obtain ⟨ht', htables'⟩ := hdeep.table.congr hsame hused (hdeep.table.heap.cons hframe hf₃ hfree)
  refine ⟨⟨ht', fun x hx => ?_, fun x => ?_, fun x hx hxf => ?_, fun i hi => ?_⟩, fun b hb => ?_⟩
  · obtain rfl | hx := (hmem' x).mp hx
    · exact hf
    · exact ((hmem x).mp (hdeep.free x hx)).1
  · rw [htables', hdeep.tables, htables, hmem, hmem', not_or, and_assoc]
  · have hxne : x ≠ f := fun he => hxf (he ▸ hf)
    rw [hpages x hxne, hdeep.others x (htables ▸ hx) fun hc => hxf ((hmem x).mp hc).1, htook.pages x hxne]
  · rw [Phys.word_congr (hsame pt root_mem), hdeep.upper i hi, Phys.word_congr (htook.pages pt _)]
    exact fun hc => hftab (hc ▸ root_mem)
  · rw [lookup_congr hb hsame, hdeep.lookup b hb, hlookup b hb]

/-- The permissions and the bytes of the page at each address; where there is no page, `none`. -/
abbrev Image := Nat → Option (Nat × (Nat → UInt8))

def Image.Perms (want : Image) : Prop := ∀ b perm bytes, want b = some (perm, bytes) → perm < 2 ^ 10

structure Filled (pt lo hi : Nat) (want : Image) (m m' : Phys) : Prop where
  table : Table m' pt
  lookup : ∀ b, b < maxva → ¬ (lo ≤ b ∧ b < hi) → m'.lookup pt b = m.lookup pt b
  absent : ∀ b, lo ≤ b → b < hi → want b = none → m'.lookup pt b = none
  fresh : ∀ b perm bytes, lo ≤ b → b < hi → want b = some (perm, bytes) → ∃ f,
    m'.lookup pt b = some (entry f perm) ∧ Frame f ∧ f ∈ m.free ∧ f ∉ m'.free ∧ f ∉ m'.tables pt ∧ m'.page f = bytes
  once : ∀ b c e e', lo ≤ b → b < hi → lo ≤ c → c < hi → m'.lookup pt b = some e → m'.lookup pt c = some e' →
    pte2pa e = pte2pa e' → b / pgsize = c / pgsize
  free : ∀ x ∈ m'.free, x ∈ m.free
  tables : ∀ x, x ∈ m'.tables pt ↔ x ∈ m.tables pt ∨ x ∈ m.free ∧ x ∉ m'.free ∧ ¬ m'.MapsTo pt lo hi x
  others : ∀ x, x ∉ m.tables pt → x ∉ m.free → m'.page x = m.page x
  upper : ∀ i : Fin 512, 256 ≤ i.1 → m'.word pt i = m.word pt i

def zeros (perm : Nat) : Image := fun _ => some (perm, fun _ => 0)

omit [Layout] in
theorem zeros_perms (hperm : perm < 2 ^ 10) : (zeros perm).Perms := by
  intro b perm' bytes h
  obtain ⟨rfl, -⟩ := Prod.mk.inj (Option.some.inj h)
  exact hperm

/-- The pages from `lo` to `hi` have been mapped to pages of zeros that were free. -/
abbrev Allocated (pt lo hi perm : Nat) (m m' : Phys) : Prop := Filled pt lo hi (zeros perm) m m'

variable {want : Image}

theorem Filled.refl (h : Table m pt) (hle : hi ≤ lo) : Filled pt lo hi want m m := by
  refine ⟨h, fun _ _ _ => rfl, fun b _ _ => by omega, fun b _ _ _ _ => by omega, fun b c _ _ _ _ _ _ => by omega,
    fun _ hx => hx, fun x => ?_, fun _ _ _ => rfl, fun _ _ => rfl⟩
  exact (or_iff_left fun hx => hx.2.1 hx.1).symm

theorem Filled.notMem_tables (h : Filled pt lo hi want m m') (ht : x ∉ m.tables pt)
    (hf : x ∉ m.free) : x ∉ m'.tables pt := by
  rw [h.tables]
  exact fun hc => hc.elim ht fun hc => hf hc.1

theorem Filled.mapsTo (h : Filled pt lo hi want m m') (hperm : want.Perms)
    (hx : m'.MapsTo pt lo hi x) : Frame x ∧ x ∈ m.free ∧ x ∉ m'.free ∧ x ∉ m'.tables pt := by
  obtain ⟨b, e, hlo, hhi, hb, rfl⟩ := hx
  cases hw : want b with
  | none =>
    rw [h.absent b hlo hhi hw] at hb
    exact absurd hb (by simp)
  | some w =>
    obtain ⟨f, hf, hframe, hfree, hnot, htab, -⟩ := h.fresh b w.1 w.2 hlo hhi hw
    rw [hb] at hf
    rw [Option.some.inj hf, hframe.entry_pa (hperm b w.1 w.2 hw)]
    exact ⟨hframe, hfree, hnot, htab⟩

theorem Filled.releasable (h : Filled pt lo hi want m m') (hperm : want.Perms) :
    Releasable m' pt lo hi := by
  refine ⟨fun b e hlo hhi he => ?_, h.once⟩
  obtain ⟨hframe, -, hfree, htab⟩ := h.mapsTo hperm ⟨b, e, hlo, hhi, he, rfl⟩
  exact ⟨hframe, htab, hfree⟩

theorem Filled.deepen (h : Filled pt lo hi want m m') (hperm : want.Perms) (hmax : hi ≤ maxva)
    (hdeep : Deepened pt m' m'') : Filled pt lo hi want m m'' := by
  have hmaps : ∀ x, m''.MapsTo pt lo hi x ↔ m'.MapsTo pt lo hi x := by
    intro x
    constructor
    · rintro ⟨b, e, hlo, hhi, hb, he⟩
      exact ⟨b, e, hlo, hhi, hdeep.lookup b (by omega) ▸ hb, he⟩
    · rintro ⟨b, e, hlo, hhi, hb, he⟩
      exact ⟨b, e, hlo, hhi, (hdeep.lookup b (by omega)).trans hb, he⟩
  refine ⟨hdeep.table, fun b hb hnot => ?_, fun b hlo hhi hw => ?_, fun b perm bytes hlo hhi hw => ?_,
    fun b c e e' hb hb' hc hc' he he' => ?_, fun x hx => h.free x (hdeep.free x hx), fun x => ?_, fun x ht hf => ?_,
    fun i hi => (hdeep.upper i hi).trans (h.upper i hi)⟩
  · rw [hdeep.lookup b hb, h.lookup b hb hnot]
  · rw [hdeep.lookup b (by omega), h.absent b hlo hhi hw]
  · obtain ⟨f, hf, hframe, hfree, hnot, htab, hbytes⟩ := h.fresh b perm bytes hlo hhi hw
    refine ⟨f, (hdeep.lookup b (by omega)).trans hf, hframe, hfree, fun hc => hnot (hdeep.free f hc),
      hdeep.notMem_tables htab hnot, ?_⟩
    rw [hdeep.others f htab hnot, hbytes]
  · rw [hdeep.lookup b (by omega)] at he
    rw [hdeep.lookup c (by omega)] at he'
    exact h.once b c e e' hb hb' hc hc' he he'
  · have hsub := hdeep.free x
    have hnot : m'.MapsTo pt lo hi x → x ∉ m'.free := fun hx => (h.mapsTo hperm hx).2.2.1
    have hfree := h.free x
    rw [hdeep.tables, h.tables, hmaps]
    tauto
  · rw [hdeep.others x (h.notMem_tables ht hf) fun hc => hf (h.free x hc), h.others x ht hf]

theorem Filled.skip (h : Filled pt lo a want m m') (hmax : a + pgsize ≤ maxva)
    (hwant : ∀ b, a ≤ b → b < a + pgsize → want b = none)
    (hnone : ∀ b, a ≤ b → b < a + pgsize → m.lookup pt b = none) : Filled pt lo (a + pgsize) want m m' := by
  have habsent : ∀ b, a ≤ b → b < a + pgsize → m'.lookup pt b = none := fun b hb hb' => by
    rw [h.lookup b (by omega) (by omega), hnone b hb hb']
  have hpast : ∀ b e, m'.lookup pt b = some e → b < a + pgsize → b < a := by
    intro b e he hb
    by_contra hba
    rw [habsent b (Nat.not_lt.mp hba) hb] at he
    exact absurd he (by simp)
  have hmaps : ∀ x, m'.MapsTo pt lo (a + pgsize) x ↔ m'.MapsTo pt lo a x := by
    intro x
    constructor
    · rintro ⟨b, e, hb, hb', he, hx⟩
      exact ⟨b, e, hb, hpast b e he hb', he, hx⟩
    · rintro ⟨b, e, hb, hb', he, hx⟩
      exact ⟨b, e, hb, by omega, he, hx⟩
  refine ⟨h.table, fun b hb hnot => h.lookup b hb (by omega), fun b hlo hhi hw => ?_,
    fun b perm bytes hlo hhi hw => ?_, fun b c e e' hb hb' hc hc' he he' => ?_, h.free, fun x => ?_, h.others,
    h.upper⟩
  · by_cases hba : b < a
    · exact h.absent b hlo hba hw
    · exact habsent b (Nat.not_lt.mp hba) hhi
  · by_cases hba : b < a
    · exact h.fresh b perm bytes hlo hba hw
    · rw [hwant b (Nat.not_lt.mp hba) hhi] at hw
      exact absurd hw (by simp)
  · exact h.once b c e e' hb (hpast b e he hb') hc (hpast c e' he' hc') he he'
  · rw [hmaps]
    exact h.tables x

theorem Filled.step {want : Image} {bytes : Nat → UInt8} {m₂ m₃ : Phys} (h : Filled pt lo a want m m') (hlo : lo ≤ a)
    (ha : a % pgsize = 0) (hmax : a + pgsize ≤ maxva) (hperm : want.Perms)
    (hwant : ∀ b, a ≤ b → b < a + pgsize → want b = some (perm, bytes)) (htook : Took f m' m₂)
    (hbytes : m₂.page f = bytes) (hgrown : Grown pt m₂ m₃)
    (hlookup : ∀ b, b < maxva →
      m₃.lookup pt b = if b / pgsize = a / pgsize then some (entry f perm) else m₂.lookup pt b) :
    Filled pt lo (a + pgsize) want m m₃ := by
  have hpg : pgsize = 4096 := rfl
  have hperma : perm < 2 ^ 10 := hperm a perm bytes (hwant a (Nat.le_refl a) (by rw [hpg]; omega))
  obtain ⟨-, htables, hsame, hframe, hf, hnot, hftab, hmem⟩ := htook.table h.table
  have hpage := page_iff ha
  have hnew : ∀ b, a ≤ b → b < a + pgsize → m₃.lookup pt b = some (entry f perm) := fun b hb hb' => by
    rw [hlookup b (by omega), if_pos ((hpage b).mp ⟨hb, hb'⟩)]
  have hold : ∀ b, b < maxva → ¬ (a ≤ b ∧ b < a + pgsize) → m₃.lookup pt b = m'.lookup pt b :=
    fun b hb hc => by rw [hlookup b hb, if_neg (mt (hpage b).mpr hc), hsame b hb]
  have hkept : ∀ x, x ∉ m'.tables pt → x ∉ m₂.free → x ∉ m₃.tables pt ∧ x ∉ m₃.free ∧ m₃.page x = m₂.page x := by
    intro x ht hx
    have ht₂ : x ∉ m₂.tables pt := htables ▸ ht
    exact ⟨hgrown.notMem_tables ht₂ hx, fun hc => hx (hgrown.free x hc), hgrown.others x ht₂ hx⟩
  have hmaps : ∀ x, m₃.MapsTo pt lo (a + pgsize) x ↔ m'.MapsTo pt lo a x ∨ x = f := by
    intro x
    constructor
    · rintro ⟨b, e, hb, hb', he, rfl⟩
      by_cases hba : b < a
      · rw [hold b (by omega) (by omega)] at he
        exact .inl ⟨b, e, hb, hba, he, rfl⟩
      · rw [hnew b (by omega) hb'] at he
        rw [← Option.some.inj he, hframe.entry_pa hperma]
        exact .inr rfl
    · rintro (⟨b, e, hb, hb', he, rfl⟩ | rfl)
      · exact ⟨b, e, hb, by omega, (hold b (by omega) (by omega)).trans he, rfl⟩
      · exact ⟨a, _, hlo, by rw [hpg]; omega, hnew a (Nat.le_refl a) (by rw [hpg]; omega), hframe.entry_pa hperma⟩
  refine ⟨hgrown.table, fun b hb hc => ?_, fun b hb hb' hw => ?_, fun b perm' bytes' hb hb' hw => ?_,
    fun b c e e' hb hb' hc hc' he he' heq => ?_, fun x hx => ?_, fun x => ?_, fun x hx hxf => ?_, fun i hi => ?_⟩
  · rw [hold b hb (by omega), h.lookup b hb (by omega)]
  · by_cases hba : b < a
    · rw [hold b (by omega) (by omega), h.absent b hb hba hw]
    · rw [hwant b (Nat.not_lt.mp hba) hb'] at hw
      exact absurd hw (by simp)
  · by_cases hba : b < a
    · obtain ⟨g, hg, hgframe, hgfree, hgnot, hgtab, hgbytes⟩ := h.fresh b perm' bytes' hb hba hw
      obtain ⟨ht, hx, hp⟩ := hkept g hgtab fun hc => hgnot ((hmem g).mp hc).1
      have hgf : g ≠ f := fun hc => hgnot (hc ▸ hf)
      refine ⟨g, (hold b (by omega) (by omega)).trans hg, hgframe, hgfree, hx, ht, ?_⟩
      rw [hp, htook.pages g hgf, hgbytes]
    · obtain ⟨ht, hx, hp⟩ := hkept f hftab hnot
      rw [hwant b (Nat.not_lt.mp hba) hb'] at hw
      obtain ⟨rfl, rfl⟩ := Prod.mk.inj (Option.some.inj hw)
      exact ⟨f, hnew b (by omega) hb', hframe, h.free f hf, hx, ht, hp.trans hbytes⟩
  · have hdiff : ∀ b e, lo ≤ b → b < a → m₃.lookup pt b = some e → pte2pa e ≠ f := by
      intro b e hb hb' he hef
      rw [hold b (by omega) (by omega)] at he
      exact (h.mapsTo hperm ⟨b, e, hb, hb', he, hef⟩).2.2.1 hf
    have hlast : ∀ b e, a ≤ b → b < a + pgsize → m₃.lookup pt b = some e → pte2pa e = f := by
      intro b e hb hb' he
      rw [hnew b hb hb'] at he
      rw [← Option.some.inj he, hframe.entry_pa hperma]
    by_cases hba : b < a
    · by_cases hca : c < a
      · rw [hold b (by omega) (by omega)] at he
        rw [hold c (by omega) (by omega)] at he'
        exact h.once b c e e' hb hba hc hca he he' heq
      · exact absurd (heq.trans (hlast c e' (by omega) hc' he')) (hdiff b e hb hba he)
    · by_cases hca : c < a
      · exact absurd (heq.symm.trans (hlast b e (by omega) hb' he)) (hdiff c e' hc hca he')
      · rw [(hpage b).mp ⟨by omega, hb'⟩, (hpage c).mp ⟨by omega, hc'⟩]
  · exact h.free x ((hmem x).mp (hgrown.free x hx)).1
  · have hsub := hgrown.free x
    have hsub' := h.free x
    have hused : m'.MapsTo pt lo a x → x ∉ m'.free := fun hx => (h.mapsTo hperm hx).2.2.1
    have hfx : x = f → x ∈ m'.free := fun hx => hx ▸ hf
    rw [hgrown.tables, htables, h.tables, hmaps, hmem]
    rw [hmem] at hsub
    constructor
    · rintro ((ht | ⟨hx, hx', hm⟩) | ⟨⟨hx, hne⟩, hx'⟩)
      · exact .inl ht
      · exact .inr ⟨hx, fun hc => hx' (hsub hc).1, not_or.mpr ⟨hm, fun he => hx' (hfx he)⟩⟩
      · exact .inr ⟨hsub' hx, hx', not_or.mpr ⟨fun hm => hused hm hx, hne⟩⟩
    · rintro (ht | ⟨hx, hx', hm⟩)
      · exact .inl (.inl ht)
      · rw [not_or] at hm
        by_cases hx₁ : x ∈ m'.free
        · exact .inr ⟨⟨hx₁, hm.2⟩, hx'⟩
        · exact .inl (.inr ⟨hx, hx₁, hm.1⟩)
  · have ht := h.notMem_tables hx hxf
    have hfree : x ∉ m'.free := fun hc => hxf (h.free x hc)
    obtain ⟨-, -, hp⟩ := hkept x ht fun hc => hfree ((hmem x).mp hc).1
    rw [hp, htook.pages x fun hc => hfree (hc ▸ hf), h.others x hx hxf]
  · have hroot : pt ≠ f := fun hc => hftab (hc ▸ root_mem)
    rw [hgrown.upper i hi, Phys.word_congr (htook.pages pt hroot), h.upper i hi]

theorem Filled.undo (h : Filled pt lo hi want m m') (hperm : want.Perms)
    (hnone : ∀ b, lo ≤ b → b < hi → m.lookup pt b = none) (hu : Unmapped pt lo hi true m' m'') :
    Deepened pt m m'' := by
  refine ⟨⟨hu.table, fun x hx => ?_, fun x => ?_, fun x hx hxf => ?_,
    fun i hi => (hu.upper i hi).trans (h.upper i hi)⟩, fun b hb => ?_⟩
  · obtain hx | ⟨-, hx⟩ := (hu.free x).mp hx
    · exact h.free x hx
    · exact (h.mapsTo hperm hx).2.1
  · rw [hu.tables, h.tables, hu.free, not_or]
    simp only [true_and]
  · rw [hu.others x (h.notMem_tables hx hxf) fun hc => hxf (h.mapsTo hperm hc.2).2.1, h.others x hx hxf]
  · rw [hu.lookup b hb]
    split
    · next hin => exact (hnone b hin.1 hin.2).symm
    · next hin => exact h.lookup b hb hin

omit [Layout] in
theorem asInt_of_lt {n : Nat} (h : n < 2 ^ 31) : asInt n = n := by
  unfold asInt
  rw [if_pos (by omega)]
  omega

theorem uvmdealloc_ensures (h : Table m pt) (hlt : newsz < oldsz) (hmax : oldsz ≤ trapframeVa)
    (hrel : Releasable m pt (pgRoundUp newsz) (pgRoundUp oldsz)) :
    Completes (uvmdealloc pt oldsz newsz) m
      (fun r m' => r = newsz ∧ Unmapped pt (pgRoundUp newsz) (pgRoundUp oldsz) true m m') := by
  have hpg : pgsize = 4096 := rfl
  have htop : trapframeVa = 2 ^ 38 - 8192 := rfl
  have hmv : maxva = 2 ^ 38 := rfl
  have hold := pgRoundUp_eq (hmax.trans (by decide))
  have hnew : pgRoundUp newsz = (newsz + 4095) / 4096 * 4096 := pgRoundUp_eq (by omega)
  unfold uvmdealloc
  rw [if_neg (Nat.not_le.mpr hlt)]
  split
  · next hpages =>
    have hint : asInt ((pgRoundUp oldsz - pgRoundUp newsz) / pgsize) =
        (pgRoundUp oldsz - pgRoundUp newsz) / pgsize := asInt_of_lt (by rw [hpg]; omega)
    have hend : pgRoundUp newsz + (pgRoundUp oldsz - pgRoundUp newsz) / pgsize * pgsize = pgRoundUp oldsz := by
      rw [hpg]
      omega
    apply Ensures.bind
    rw [hint]
    refine (uvmunmap_ensures h (pgRoundUp_aligned newsz) ?_ true fun _ => ?_).post fun _ m' hu => ?_
    · rw [hend]
      omega
    · rwa [hend]
    · rw [hend] at hu
      exact .pure ⟨rfl, hu⟩
  · next hpages => exact .pure ⟨rfl, .empty h (Nat.not_lt.mp hpages) true⟩

theorem rollback_ensures (h : Filled pt lo a want m m') (hperm : want.Perms) (hla : lo ≤ a)
    (hlo : lo % pgsize = 0) (ha : a % pgsize = 0) (hmax : a ≤ trapframeVa)
    (hnone : ∀ b, lo ≤ b → b < a → m.lookup pt b = none) :
    Completes (discard (uvmdealloc pt a lo)) m' (fun _ m'' => Deepened pt m m'') := by
  have htop : trapframeVa ≤ maxva := by decide
  apply Ensures.bind
  by_cases hlt : lo < a
  · have hup : pgRoundUp lo = lo := pgRoundUp_of_aligned (by omega) hlo
    have hup' : pgRoundUp a = a := pgRoundUp_of_aligned (by omega) ha
    have hrel := h.releasable hperm
    rw [← hup, ← hup'] at hrel
    refine (uvmdealloc_ensures h.table hlt hmax hrel).post fun _ m'' hu => ?_
    rw [hup, hup'] at hu
    exact .pure (h.undo hperm hnone hu.2)
  · obtain rfl : a = lo := by omega
    rw [uvmdealloc, if_pos (Nat.le_refl a)]
    exact .pure (.pure (h.undo hperm hnone (.empty h.table (Nat.le_refl a) true)))

theorem Grown.free_length (h : Grown pt m m') : m'.free.length ≤ m.free.length :=
  (h.table.heap.nodup.subperm h.free).length_le

/-- What `uvmalloc` does: all pages are there, or only the table has grown. -/
def Allocates (pt lo newsz perm : Nat) (m : Phys) (r : Nat) (m' : Phys) : Prop :=
  (r = newsz ∧ ∃ hi, newsz ≤ hi ∧ hi < newsz + pgsize ∧ hi % pgsize = 0 ∧ hi ≤ trapframeVa ∧ lo ≤ hi ∧
    Allocated pt lo hi perm m m') ∨ r = 0 ∧ Deepened pt m m'

theorem allocLoop_ensures (rounds : Nat) (hperm : pteR ||| pteU ||| xperm < 2 ^ 10)
    (h : Allocated pt lo a (pteR ||| pteU ||| xperm) m m') (hla : lo ≤ a) (hlo : lo % pgsize = 0)
    (ha : a % pgsize = 0) (hrounds : newsz ≤ a + rounds * pgsize) (hend : a < newsz + pgsize)
    (htop : a ≤ trapframeVa) (hlim : newsz ≤ trapframeVa ∨ lo + m.free.length * pgsize ≤ trapframeVa)
    (hcount : a + m'.free.length * pgsize ≤ lo + m.free.length * pgsize)
    (hnone : ∀ b, lo ≤ b → b < trapframeVa → m.lookup pt b = none) :
    Completes (allocLoop pt lo newsz xperm rounds a) m'
      (Allocates pt lo newsz (pteR ||| pteU ||| xperm) m) := by
  have hperms := zeros_perms hperm
  have hpg : pgsize = 4096 := rfl
  have htf : trapframeVa = 2 ^ 38 - 8192 := rfl
  have hmv : maxva = 2 ^ 38 := rfl
  induction rounds generalizing m' a with
  | zero => exact .pure (.inl ⟨rfl, a, by omega, hend, ha, htop, hla, h⟩)
  | succ rounds ih =>
    rw [allocLoop]
    split
    · next hlt =>
      have hback : ∀ m'', Deepened pt m' m'' →
          Completes (do discard (uvmdealloc pt a lo); return 0) m''
            (Allocates pt lo newsz (pteR ||| pteU ||| xperm) m) := by
        intro m'' hdeep
        refine (rollback_ensures (h.deepen hperms (by omega) hdeep) hperms hla hlo ha htop fun b hb hb' => ?_).seq ?_
        · exact hnone b hb (by omega)
        · exact fun _ m₃ h₃ => .pure (.inr ⟨rfl, h₃⟩)
      refine (kalloc_took m').seq ?_
      rintro r m₂ (⟨rfl, hfree, hpage⟩ | ⟨f, rfl, htook⟩)
      · exact hback m₂ (.of_same h.table hfree hpage)
      · apply Ensures.bind_modify
        have htook' := htook.setPage fun _ => 0
        have hzero := m₂.setPage_page_self f fun _ => 0
        obtain ⟨htable, -, hsame, hframe, -, -, -, -⟩ := htook'.table h.table
        have hlen : m'.free.length = m₂.free.length + 1 := by rw [htook.free, List.length_cons]
        have hroom : a + pgsize ≤ trapframeVa := by
          rw [hpg] at ha hcount hlim ⊢
          omega
        have hunmapped : (m₂.setPage f fun _ => 0).lookup pt a = none := by
          rw [hsame a (by omega), h.lookup a (by omega) (by omega), hnone a hla (by omega)]
        refine (mappages_one htable ha (by omega) hframe.lt hperm hunmapped).seq ?_
        rintro r m₃ (⟨rfl, hgrown, hmapped⟩ | ⟨rfl, hdeep⟩)
        · rw [if_neg (not_not.mpr rfl)]
          have hnext := h.step hla ha (by omega) hperms (fun _ _ _ => rfl) htook' hzero hgrown hmapped
          have hless : m₃.free.length ≤ m₂.free.length := hgrown.free_length
          have hal : (a + pgsize) % pgsize = 0 := by rw [Nat.add_mod_right, ha]
          rw [hpg] at hrounds hcount hlim hend
          refine ih hnext (by omega) hal ?_ ?_ hroom ?_
          · rw [hpg]
            omega
          · rw [hpg]
            omega
          · rw [hpg]
            omega
        · rw [if_pos (by decide)]
          refine (kfree_ensures hframe).seq ?_
          rintro _ m₄ ⟨hfree, hpages⟩
          exact hback m₄ (.give_back h.table htook' hdeep hfree hpages)
    · next hlt => exact .pure (.inl ⟨rfl, a, by omega, hend, ha, htop, hla, h⟩)

theorem uvmalloc_ensures (h : Table m pt) (hperm : pteR ||| pteU ||| xperm < 2 ^ 10)
    (hle : oldsz ≤ newsz) (hold : oldsz ≤ trapframeVa)
    (hlim : newsz ≤ trapframeVa ∨ pgRoundUp oldsz + m.free.length * pgsize ≤ trapframeVa)
    (hnone : ∀ b, pgRoundUp oldsz ≤ b → b < trapframeVa → m.lookup pt b = none) :
    Completes (uvmalloc pt oldsz newsz xperm) m
      (Allocates pt (pgRoundUp oldsz) newsz (pteR ||| pteU ||| xperm) m) := by
  have hpg : pgsize = 4096 := rfl
  have hup := pgRoundUp_eq (hold.trans (by decide))
  have htop := pgRoundUp_le hold
  rw [uvmalloc, if_neg (Nat.not_lt.mpr hle)]
  refine allocLoop_ensures _ hperm (.refl h (Nat.le_refl _)) (Nat.le_refl _) (pgRoundUp_aligned _)
    (pgRoundUp_aligned _) ?_ ?_ htop hlim (Nat.le_refl _) hnone
  · rw [hpg]
    omega
  · rw [hpg]
    omega

/-- The pages mapped below the trapframe are the process's own, and lie below its size. -/
structure UserPages (m : Phys) (pt sz : Nat) : Prop where
  table : Table m pt
  below : ∀ a e, a < trapframeVa → m.lookup pt a = some e → a < pgRoundUp sz
  own : Releasable m pt 0 trapframeVa

theorem UserPages.none {b : Nat} (h : UserPages m pt sz) (hb : pgRoundUp sz ≤ b) (htop : b < trapframeVa) :
    m.lookup pt b = none := by
  cases he : m.lookup pt b with
  | none => rfl
  | some e =>
    have := h.below b e htop he
    omega

theorem UserPages.deepen (h : UserPages m pt sz) (hdeep : Deepened pt m m') :
    UserPages m' pt sz := by
  have htop : trapframeVa ≤ maxva := by decide
  have hsame : ∀ b, b < trapframeVa → m'.lookup pt b = m.lookup pt b := fun b hb => hdeep.lookup b (by omega)
  refine ⟨hdeep.table, fun a e ha he => h.below a e ha (hsame a ha ▸ he), fun b e hb hb' he => ?_, ?_⟩
  · obtain ⟨hframe, htab, hfree⟩ := h.own.frame b e hb hb' (hsame b hb' ▸ he)
    exact ⟨hframe, hdeep.notMem_tables htab hfree, fun hc => hfree (hdeep.free _ hc)⟩
  · intro b c e e' hb hb' hc hc' he he'
    rw [hsame b hb'] at he
    rw [hsame c hc'] at he'
    exact h.own.once b c e e' hb hb' hc hc' he he'

theorem UserPages.filled (h : UserPages m pt sz) (hperm : want.Perms)
    (ha : Filled pt lo hi want m m') (hhi : hi ≤ pgRoundUp newsz) (hsz : pgRoundUp sz ≤ pgRoundUp newsz) :
    UserPages m' pt newsz := by
  have htop : trapframeVa ≤ maxva := by decide
  have hold : ∀ b e, b < trapframeVa → ¬ (lo ≤ b ∧ b < hi) → m'.lookup pt b = some e →
      m.lookup pt b = some e ∧ b < pgRoundUp sz ∧ pte2pa e ∉ m.free := by
    intro b e hb hnot he
    rw [ha.lookup b (by omega) hnot] at he
    exact ⟨he, h.below b e hb he, (h.own.frame b e (Nat.zero_le b) hb he).2.2⟩
  have hfresh : ∀ b e, lo ≤ b ∧ b < hi → m'.lookup pt b = some e → pte2pa e ∈ m.free :=
    fun b e hin he => (ha.mapsTo hperm ⟨b, e, hin.1, hin.2, he, rfl⟩).2.1
  refine ⟨ha.table, fun b e hb he => ?_, fun b e hb hb' he => ?_, fun b c e e' hb hb' hc hc' he he' heq => ?_⟩
  · by_cases hin : lo ≤ b ∧ b < hi
    · exact hin.2.trans_le hhi
    · exact (hold b e hb hin he).2.1.trans_le hsz
  · by_cases hin : lo ≤ b ∧ b < hi
    · obtain ⟨hframe, -, hfree, htab⟩ := ha.mapsTo hperm ⟨b, e, hin.1, hin.2, he, rfl⟩
      exact ⟨hframe, htab, hfree⟩
    · obtain ⟨hframe, htab, hfree⟩ := h.own.frame b e hb hb' (hold b e hb' hin he).1
      exact ⟨hframe, ha.notMem_tables htab hfree, fun hc => hfree (ha.free _ hc)⟩
  · by_cases hin : lo ≤ b ∧ b < hi
    · by_cases hin' : lo ≤ c ∧ c < hi
      · exact ha.once b c e e' hin.1 hin.2 hin'.1 hin'.2 he he' heq
      · exact absurd (heq ▸ hfresh b e hin he) (hold c e' hc' hin' he').2.2
    · by_cases hin' : lo ≤ c ∧ c < hi
      · exact absurd (heq ▸ hfresh c e' hin' he') (hold b e hb' hin he).2.2
      · exact h.own.once b c e e' hb hb' hc hc' (hold b e hb' hin he).1 (hold c e' hc' hin' he').1 heq

theorem UserPages.unmapped (h : UserPages m pt sz) (hsz : sz ≤ trapframeVa)
    (hu : Unmapped pt (pgRoundUp newsz) (pgRoundUp sz) true m m') : UserPages m' pt newsz := by
  have htop : trapframeVa ≤ maxva := by decide
  have hold : ∀ b e, b < trapframeVa → m'.lookup pt b = some e →
      m.lookup pt b = some e ∧ b < pgRoundUp newsz := by
    intro b e hb he
    rw [hu.lookup b (by omega)] at he
    split at he
    · exact absurd he (by simp)
    · next hnot =>
      have := h.below b e hb he
      exact ⟨he, by omega⟩
  refine ⟨hu.table, fun b e hb he => (hold b e hb he).2, fun b e hb hb' he => ?_, ?_⟩
  · obtain ⟨he, hlt⟩ := hold b e hb' he
    obtain ⟨hframe, htab, hfree⟩ := h.own.frame b e hb hb' he
    refine ⟨hframe, hu.tables ▸ htab, fun hc => ?_⟩
    obtain hc | ⟨-, c, e', hc, hc', he', heq⟩ := (hu.free _).mp hc
    · exact hfree hc
    · have hpg : pgsize = 4096 := rfl
      have hsz := pgRoundUp_le hsz
      have hal := pgRoundUp_aligned newsz
      have hpage := h.own.once c b e' e (Nat.zero_le c) (by omega) hb hb' he' he heq
      rw [hpg] at hpage hal
      omega
  · intro b c e e' hb hb' hc hc' he he'
    exact h.own.once b c e e' hb hb' hc hc' (hold b e hb' he).1 (hold c e' hc' he').1

omit [Layout] in
theorem pgRoundUp_unique (hmax : newsz ≤ maxva) (hle : newsz ≤ hi) (hlt : hi < newsz + pgsize)
    (hal : hi % pgsize = 0) : pgRoundUp newsz = hi := by
  have hpg : pgsize = 4096 := rfl
  rw [pgRoundUp_eq hmax]
  rw [hpg] at hlt hal
  omega

/-- What `growproc` leaves: the user pages lie below the size, which has changed as asked for, or nothing has
changed. -/
structure Regrown (p : Proc) (n : Int) (m : Phys) (r : Int × Proc) (m' : Phys) : Prop where
  user : UserPages m' p.pagetable r.2.sz
  table : r.2.pagetable = p.pagetable
  grown : r.1 = 0 → 0 ≤ p.sz + n → (r.2.sz : Int) = p.sz + n
  same : r.1 = -1 ∨ (p.sz : Int) + n < 0 →
    r.2.sz = p.sz ∧ ∀ b, b < maxva → m'.lookup p.pagetable b = m.lookup p.pagetable b
  ret : r.1 = 0 ∨ r.1 = -1

theorem growproc_ensures (p : Proc) (n : Int32) (h : UserPages m p.pagetable p.sz) (hsz : p.sz ≤ trapframeVa)
    (hn : (p.sz : Int) + n.toInt ≤ trapframeVa) :
    Completes (growproc p n.toInt) m (Regrown p n.toInt m) := by
  have htf : trapframeVa = 2 ^ 38 - 8192 := rfl
  have hmv : maxva = 2 ^ 38 := rfl
  have hlow : -2 ^ 31 ≤ n.toInt := n.le_toInt
  have hzero : (0 : Int) ≠ -1 := by decide
  unfold growproc
  split
  · next hpos =>
    have hadd : (addInt p.sz n.toInt : Int) = p.sz + n.toInt := by
      unfold addInt
      omega
    refine (uvmalloc_ensures h.table (by decide) (by omega) hsz (.inl (by omega)) fun b => h.none).seq ?_
    rintro r m' (⟨rfl, hi, hle, hlt, hal, htop, hlo, ha⟩ | ⟨rfl, hdeep⟩)
    · rw [if_neg (by omega)]
      have hup := pgRoundUp_unique (by omega) hle hlt hal
      refine .pure ⟨h.filled (zeros_perms (by decide)) ha hup.ge (hlo.trans hup.ge), rfl, fun _ _ => hadd, ?_,
        .inl rfl⟩
      rintro (hr | hr)
      · exact absurd hr hzero
      · omega
    · rw [if_pos rfl]
      exact .pure ⟨h.deepen hdeep, rfl, fun hr => absurd hr.symm hzero, fun _ => ⟨rfl, hdeep.lookup⟩, .inr rfl⟩
  · next hpos =>
    split
    · next hneg =>
      apply Ensures.bind
      by_cases hwrap : (p.sz : Int) + n.toInt < 0
      · have hbig : p.sz ≤ addInt p.sz n.toInt := by
          unfold addInt
          omega
        rw [uvmdealloc, if_pos hbig]
        refine .pure (.pure ⟨h, rfl, fun _ hc => ?_, fun _ => ⟨rfl, fun _ _ => rfl⟩, .inl rfl⟩)
        omega
      · have hadd : (addInt p.sz n.toInt : Int) = p.sz + n.toInt := by
          unfold addInt
          omega
        have hup := pgRoundUp_le hsz
        refine (uvmdealloc_ensures h.table (by omega) hsz (h.own.mono (Nat.zero_le _) hup)).post ?_
        rintro r m' ⟨rfl, hu⟩
        refine .pure ⟨h.unmapped hsz hu, rfl, fun _ _ => hadd, ?_, .inl rfl⟩
        rintro (hr | hr)
        · exact absurd hr hzero
        · omega
    · next hneg =>
      refine .pure ⟨h, rfl, fun _ _ => ?_, fun _ => ⟨rfl, fun _ _ => rfl⟩, .inl rfl⟩
      dsimp only
      omega

/-- `uvmalloc` gives all pages up to the new size or leaves the mappings as they were, and `uvmdealloc` removes
exactly the pages between the rounded sizes. -/
theorem user_memory_resizes {oldsz : Nat} (h : UserPages m pt oldsz) (hold : oldsz ≤ trapframeVa) :
    (∀ newsz xperm, oldsz ≤ newsz → newsz ≤ trapframeVa → xperm < 2 ^ 10 →
      Ensures (uvmalloc pt oldsz newsz xperm) m
        (fun r m' => r = newsz ∧
            Allocated pt (pgRoundUp oldsz) (pgRoundUp newsz) (pteR ||| pteU ||| xperm) m m' ∨
          r = 0 ∧ Deepened pt m m') (fun _ _ => False)) ∧
    (∀ newsz, newsz < oldsz → Ensures (uvmdealloc pt oldsz newsz) m
      (fun r m' => r = newsz ∧ Unmapped pt (pgRoundUp newsz) (pgRoundUp oldsz) true m m') (fun _ _ => False)) ∧
    ∀ (n : Int32) (trapframe : Nat), (oldsz : Int) + n.toInt ≤ trapframeVa →
      Ensures (growproc ⟨pt, oldsz, trapframe⟩ n.toInt) m (Regrown ⟨pt, oldsz, trapframe⟩ n.toInt m)
        (fun _ _ => False) := by
  have hup := pgRoundUp_le hold
  refine ⟨fun newsz xperm hle hmax hx => ?_, fun newsz hlt => ?_, fun n trapframe hn => ?_⟩
  · have hperm : pteR ||| pteU ||| xperm < 2 ^ 10 := Nat.or_lt_two_pow (by decide) hx
    refine (uvmalloc_ensures h.table hperm hle hold (.inl hmax) fun b => h.none).post ?_
    rintro r m' (⟨hr, hi, hhi, hlt, hal, -, -, ha⟩ | hdeep)
    · rw [pgRoundUp_unique (hmax.trans (by decide)) hhi hlt hal]
      exact .inl ⟨hr, ha⟩
    · exact .inr hdeep
  · exact uvmdealloc_ensures h.table hlt hold (h.own.mono (Nat.zero_le _) hup)
  · exact growproc_ensures _ n h hold hn

end

theorem smallPhys_userPages : @UserPages smallLayout smallPhys 0x80022000 0 := by
  have hnone := (@Table.empty smallLayout smallPhys 0x80022000 rfl (by decide) smallPhys_freeList).2.2
  have hempty : ∀ b e, b < trapframeVa → smallPhys.lookup 0x80022000 b ≠ some e := by
    intro b e hb
    rw [hnone b (hb.trans (by decide))]
    exact Option.some_ne_none e ∘ Eq.symm
  refine @UserPages.mk smallLayout _ _ _ smallPhys_table (fun b e hb he => absurd he (hempty b e hb)) ?_
  exact @Releasable.mk smallLayout _ _ _ _ (fun b e _ hb he => absurd he (hempty b e hb))
    fun b c e f _ hb _ _ he => absurd he (hempty b e hb)

/-- One page is added to an empty memory; three pages are needed for it. -/
theorem user_memory_resizes_small :
    Ensures (@uvmalloc smallLayout 0x80022000 0 pgsize pteW) smallPhys
      (fun r m' => r = pgsize ∧ m'.free = [] ∧
        (r = pgsize ∧ @Allocated smallLayout 0x80022000 (pgRoundUp 0) (pgRoundUp pgsize)
            (pteR ||| pteU ||| pteW) smallPhys m' ∨ r = 0 ∧ @Deepened smallLayout 0x80022000 smallPhys m'))
      (fun _ _ => False) := by
  have hrun : Ensures (@uvmalloc smallLayout 0x80022000 0 pgsize pteW) smallPhys
      (fun r m' => r = pgsize ∧ m'.free = []) (fun _ _ => False) := by
    decide +kernel
  have hall := (@user_memory_resizes smallLayout _ _ _ smallPhys_userPages (by decide)).1 pgsize pteW
    (by decide) (by decide) (by decide)
  exact (hrun.and hall).imp (fun r m' hr => ⟨hr.1.1, hr.1.2, hr.2⟩) fun _ _ he => he.1

end Xv6.Vm
