import Xv6.PageTable

namespace Xv6.Vm

open Xv6.Lib Xv6.Lib.Words Xv6.Lib.Radix

section

variable [Layout] {m m' m'' : Phys} {pt a b t lo hi pa perm mid va : Nat} {doFree : Bool}

theorem Table.setLeaf {v : Nat} (h : Table m pt) (ha : a < maxva) (ht : node m.link pt (path a) = some t)
    (hv : v < 2 ^ 64) :
    Grown pt m (m.setWord t (px 0 a) v) ∧ (m.setWord t (px 0 a) v).tables pt = m.tables pt ∧
      ∀ b, b < maxva → (m.setWord t (px 0 a) v).lookup pt b =
        if b / pgsize = a / pgsize then if has v pteV then some v else none else m.lookup pt b := by
  have htmem : t ∈ m.tables pt := mem_nodes ht (path_length a).le
  have hupper : ∀ {q : List (Fin 512)} {x}, q.length < 2 → node m.link pt q = some x → x ≠ t := by
    rintro q x hq hx rfl
    have hlen := congrArg List.length (h.tree hq.le (path_length a).le hx ht)
    exact absurd hlen (ne_of_lt hq)
  obtain ⟨m₁, hm₁⟩ : ∃ m₁, m₁ = m.setWord t (px 0 a) v := ⟨_, rfl⟩
  rw [← hm₁]
  have hpage : ∀ x, x ≠ t → m₁.page x = m.page x := fun x hx => by rw [hm₁, Phys.setWord_page_ne _ _ _ hx]
  have hnode : ∀ q : List (Fin 512), q.length ≤ 2 → node m₁.link pt q = node m.link pt q := fun q hq =>
    node_congr (fun q x i hq hx => link_congr (hpage x (hupper hq hx)) i) hq
  have htables : m₁.tables pt = m.tables pt := nodes_congr hnode
  have hfree : m₁.free = m.free := by rw [hm₁]; rfl
  have htable : Table m₁ pt := by
    refine ⟨h.tree.congr hnode, fun q x i hq hx hvalid => ?_, ?_, ⟨hfree ▸ h.heap.nodup, hfree ▸ h.heap.frame⟩⟩
    · rw [hnode q hq.le] at hx
      have hword := Phys.word_congr (hpage x (hupper hq hx)) i
      rw [hword] at hvalid ⊢
      exact h.inner q x i hq hx hvalid
    · rw [htables, hfree]
      exact h.used
  have hroot : pt ≠ t := hupper (q := []) Nat.two_pos rfl
  refine ⟨⟨htable, fun x hx => hfree ▸ hx, fun x => ?_, fun x hx _ => ?_,
    fun i _ => Phys.word_congr (hpage pt hroot) i⟩, htables, fun b hb => ?_⟩
  · rw [htables, hfree]
    exact (or_iff_left fun hx => hx.2 hx.1).symm
  · exact hpage x fun he => hx (he ▸ htmem)
  · by_cases hab : b / pgsize = a / pgsize
    · rw [if_pos hab, lookup_page m₁ pt hb ha hab, lookup_of_node ha ((hnode _ (path_length a).le).trans ht), hm₁,
        Phys.word_setWord_self m t _ hv]
    · rw [if_neg hab, lookup_eq m₁ pt hb, lookup_eq m pt hb, hnode _ (path_length b).le]
      cases hx : node m.link pt (path b) with
      | none => rfl
      | some x =>
        have hne : ¬ (x = t ∧ px 0 b = px 0 a) := by
          rintro ⟨rfl, h0⟩
          have hpath := h.tree (path_length b).le (path_length a).le hx ht
          obtain ⟨h2, h1⟩ := List.cons.inj hpath
          exact hab (page_of_px hb ha h2 (List.cons.inj h1).1 h0)
        rw [Option.bind_some, Option.bind_some, hm₁, Phys.word_setWord_ne m v hne]

def Phys.mapped (m : Phys) (pt a k pa perm b : Nat) : Option Nat :=
  if a ≤ b ∧ b < a + k * pgsize then some (entry ((pa + (b - a) / pgsize * pgsize) % 2 ^ 64) perm)
  else m.lookup pt b

/-- What `mappages` has done: some of the pages are mapped, from the first one on. -/
def Mapped (pt a pa perm n : Nat) (m : Phys) (r : Int) (m' : Phys) : Prop :=
  ∃ k, (r = 0 ∧ k = n ∨ r = -1 ∧ k < n) ∧ Grown pt m m' ∧
    ∀ b, b < maxva → m'.lookup pt b = m.mapped pt a k pa perm b

omit [Layout] in
theorem Phys.mapped_zero (m : Phys) (pt a pa perm b : Nat) : m.mapped pt a 0 pa perm b = m.lookup pt b := by
  rw [Phys.mapped, if_neg (by omega)]

omit [Layout] in
theorem Phys.mapped_succ (k : Nat) (ha : a % pgsize = 0) (hpa : pa < 2 ^ 64) (hb : b < maxva)
    (h : ∀ b, b < maxva →
      m'.lookup pt b = if b / pgsize = a / pgsize then some (entry pa perm) else m.lookup pt b) :
    m'.mapped pt (a + pgsize) k ((pa + pgsize) % 2 ^ 64) perm b = m.mapped pt a (k + 1) pa perm b := by
  have hpg : pgsize = 4096 := rfl
  rw [Phys.mapped, Phys.mapped, h b hb]
  rw [hpg] at ha ⊢
  by_cases hfirst : b / 4096 = a / 4096
  · have hoff : (b - a) / 4096 = 0 := by omega
    rw [if_neg (by omega), if_pos hfirst, if_pos (by omega), hoff, Nat.zero_mul, Nat.add_zero,
      Nat.mod_eq_of_lt hpa]
  · by_cases hin : a + 4096 ≤ b ∧ b < a + 4096 + k * 4096
    · have hoff : (b - a) / 4096 * 4096 = 4096 + (b - (a + 4096)) / 4096 * 4096 := by omega
      rw [if_pos hin, if_pos (by omega), hoff, Nat.mod_add_mod, Nat.add_assoc]
    · rw [if_neg hin, if_neg hfirst, if_neg (by omega)]

theorem mapLoop_ensures (rounds : Nat) (h : Table m pt) (hpos : 0 < rounds) (ha : a % pgsize = 0)
    (hmax : a + rounds * pgsize ≤ maxva) (hpa : pa < 2 ^ 64) (hperm : perm < 2 ^ 10)
    (hfree : ∀ b, a ≤ b → b < a + rounds * pgsize → m.lookup pt b = none) :
    Completes (mapLoop pt perm (a + rounds * pgsize - pgsize) rounds a pa) m (Mapped pt a pa perm rounds m) := by
  have hpg : pgsize = 4096 := rfl
  induction rounds generalizing m a pa with
  | zero => exact absurd hpos (Nat.lt_irrefl 0)
  | succ rounds ih =>
    have hamax : a < maxva := by
      rw [hpg] at hmax
      omega
    rw [mapLoop]
    refine (walk_ensures h hamax).seq ?_
    rintro r m₁ ⟨hdeep, hnode⟩
    have hsame : ∀ b, b < maxva → m₁.lookup pt b = m.lookup pt b := hdeep.lookup
    cases r with
    | none =>
      refine .pure ⟨0, .inr ⟨rfl, Nat.succ_pos _⟩, hdeep.toGrown, fun b hb => ?_⟩
      rw [m.mapped_zero, hsame b hb]
    | some ptr =>
      obtain ⟨t, i⟩ := ptr
      obtain ⟨hi, ht⟩ := hnode _ rfl
      dsimp only at hi ht
      subst hi
      have hinvalid : has (m₁.word t (px 0 a)) pteV = false := by
        have hnone := hsame a hamax
        rw [hfree a (Nat.le_refl a) (by rw [hpg]; omega), lookup_of_node hamax ht] at hnone
        exact Bool.eq_false_iff.mpr fun hv => by simp [hv] at hnone
      obtain ⟨hgrown, -, hleaf⟩ := hdeep.table.setLeaf hamax ht (entry_lt hpa hperm)
      rw [entry_valid] at hleaf
      simp only [if_true] at hleaf
      obtain ⟨m₂, hm₂⟩ : ∃ m₂, m₂ = m₁.setWord t (px 0 a) (entry pa perm) := ⟨_, rfl⟩
      rw [← hm₂] at hgrown hleaf
      have hentry : ∀ b, b < maxva →
          m₂.lookup pt b = if b / pgsize = a / pgsize then some (entry pa perm) else m.lookup pt b := by
        intro b hb
        rw [hleaf b hb, hsame b hb]
      apply Ensures.bind_get
      dsimp only
      rw [hinvalid, if_neg Bool.false_ne_true]
      apply Ensures.bind_set
      rw [← entry, ← hm₂]
      have hgrown₂ := hdeep.toGrown.trans hgrown
      split
      · next hlast =>
        have hone : rounds = 0 := by
          rw [hpg] at hlast
          omega
        refine .pure ⟨1, .inl ⟨rfl, by rw [hone]⟩, hgrown₂, fun b hb => ?_⟩
        rw [← Phys.mapped_succ 0 ha hpa hb hentry, m₂.mapped_zero]
      · next hlast =>
        have hnext : a + (rounds + 1) * pgsize = a + pgsize + rounds * pgsize := by
          rw [Nat.succ_mul]
          omega
        have hmore : 0 < rounds := by
          refine Nat.pos_of_ne_zero fun hz => hlast ?_
          rw [hz]
          omega
        rw [hnext] at hmax hfree ⊢
        refine (ih hgrown₂.table hmore ?_ hmax (Nat.mod_lt _ (by decide)) fun b hlo hhi => ?_).post ?_
        · rw [Nat.add_mod_right, ha]
        · have hne : b / pgsize ≠ a / pgsize := by
            rw [hpg] at ha hlo ⊢
            omega
          rw [hentry b (by omega), if_neg hne]
          exact hfree b (by omega) hhi
        · rintro r m₃ ⟨k, hret, hgrown₃, hmapped⟩
          refine ⟨k + 1, hret.imp (fun h => ⟨h.1, by rw [h.2]⟩) fun h => ⟨h.1, Nat.succ_lt_succ h.2⟩,
            hgrown₂.trans hgrown₃, fun b hb => ?_⟩
          rw [hmapped b hb, Phys.mapped_succ k ha hpa hb hentry]

theorem mappages_ensures {size : Nat} (h : Table m pt) (hva : va % pgsize = 0) (hsize : size % pgsize = 0)
    (hpos : 0 < size) (hmax : va + size ≤ maxva) (hpa : pa < 2 ^ 64) (hperm : perm < 2 ^ 10)
    (hfree : ∀ b, va ≤ b → b < va + size → m.lookup pt b = none) :
    Completes (mappages pt va size pa perm) m (Mapped pt va pa perm (size / pgsize) m) := by
  have hpg : pgsize = 4096 := rfl
  have hdiv : size / pgsize * pgsize = size := Nat.div_mul_cancel (Nat.dvd_of_mod_eq_zero hsize)
  have hlast : (va + size - pgsize) % 2 ^ 64 = va + size / pgsize * pgsize - pgsize := by
    rw [hdiv]
    apply Nat.mod_eq_of_lt
    have hlt : maxva < 2 ^ 64 := by decide
    omega
  have hrounds : 0 < size / pgsize := by
    rw [hpg] at hsize ⊢
    omega
  rw [mappages, if_neg (not_not.mpr hva), if_neg (not_not.mpr hsize), if_neg hpos.ne', hlast]
  refine mapLoop_ensures _ h hrounds hva ?_ hpa hperm fun b hlo hhi => ?_
  · rwa [hdiv]
  · rw [hdiv] at hhi
    exact hfree b hlo hhi

theorem kfree_ensures {p : Nat} (h : Frame p) :
    Completes (kfree p) m (fun _ m' => m'.free = p :: m.free ∧ ∀ x, x ≠ p → m'.page x = m.page x) := by
  have hok : ¬ (p % pgsize ≠ 0 ∨ p < kend ∨ phystop ≤ p) := by
    rintro (hc | hc | hc)
    · exact hc h.aligned
    · exact Nat.not_le.mpr hc h.low
    · exact Nat.not_lt.mpr hc h.high
  rw [kfree, if_neg hok]
  exact .modify ⟨rfl, fun x hx => Phys.fill_page_ne m 1 hx⟩

theorem FreeList.cons {p : Nat} (h : FreeList m) (hp : Frame p) (hnot : p ∉ m.free)
    (hfree : m'.free = p :: m.free) : FreeList m' := by
  refine ⟨?_, ?_⟩
  · rw [hfree]
    exact List.nodup_cons.mpr ⟨hnot, h.nodup⟩
  · intro x hx
    rw [hfree, List.mem_cons] at hx
    obtain rfl | hx := hx
    · exact hp
    · exact h.frame x hx

/-- The pages mapped in a range are in use, are no pages of the table, and are mapped once there. -/
structure Releasable (m : Phys) (pt lo hi : Nat) : Prop where
  frame : ∀ b e, lo ≤ b → b < hi → m.lookup pt b = some e →
    Frame (pte2pa e) ∧ pte2pa e ∉ m.tables pt ∧ pte2pa e ∉ m.free
  once : ∀ b c e f, lo ≤ b → b < hi → lo ≤ c → c < hi → m.lookup pt b = some e → m.lookup pt c = some f →
    pte2pa e = pte2pa f → b / pgsize = c / pgsize

theorem Releasable.mono {lo' hi' : Nat} (h : Releasable m pt lo hi) (hlo : lo ≤ lo') (hhi : hi' ≤ hi) :
    Releasable m pt lo' hi' :=
  ⟨fun b e hb hb' => h.frame b e (hlo.trans hb) (hb'.trans_le hhi), fun b c e f hb hb' hc hc' =>
    h.once b c e f (hlo.trans hb) (hb'.trans_le hhi) (hlo.trans hc) (hc'.trans_le hhi)⟩

def Phys.MapsTo (m : Phys) (pt lo hi x : Nat) : Prop :=
  ∃ b e, lo ≤ b ∧ b < hi ∧ m.lookup pt b = some e ∧ pte2pa e = x

structure Unmapped (pt lo hi : Nat) (doFree : Bool) (m m' : Phys) : Prop where
  table : Table m' pt
  tables : m'.tables pt = m.tables pt
  lookup : ∀ b, b < maxva → m'.lookup pt b = if lo ≤ b ∧ b < hi then none else m.lookup pt b
  free : ∀ x, x ∈ m'.free ↔ x ∈ m.free ∨ doFree = true ∧ m.MapsTo pt lo hi x
  others : ∀ x, x ∉ m.tables pt → ¬ (doFree = true ∧ m.MapsTo pt lo hi x) → m'.page x = m.page x
  upper : ∀ i : Fin 512, 256 ≤ i.1 → m'.word pt i = m.word pt i

theorem Unmapped.empty (h : Table m pt) (hle : hi ≤ lo) (doFree : Bool) : Unmapped pt lo hi doFree m m := by
  have hnone : ∀ x, ¬ m.MapsTo pt lo hi x := by
    rintro x ⟨b, e, hlo, hhi, -⟩
    omega
  refine ⟨h, rfl, fun b _ => (if_neg (by omega)).symm, fun x => ?_, fun _ _ _ => rfl, fun _ _ => rfl⟩
  exact (or_iff_left fun hc => hnone x hc.2).symm

theorem Unmapped.mapsTo (h : Unmapped pt lo mid doFree m m') (hmax : hi ≤ maxva)
    (x : Nat) : m'.MapsTo pt mid hi x ↔ m.MapsTo pt mid hi x := by
  have hsame : ∀ b, mid ≤ b → b < hi → m'.lookup pt b = m.lookup pt b := fun b hlo hhi => by
    rw [h.lookup b (by omega), if_neg (by omega)]
  constructor
  · rintro ⟨b, e, hlo, hhi, hb, he⟩
    exact ⟨b, e, hlo, hhi, hsame b hlo hhi ▸ hb, he⟩
  · rintro ⟨b, e, hlo, hhi, hb, he⟩
    exact ⟨b, e, hlo, hhi, (hsame b hlo hhi).trans hb, he⟩

omit [Layout] in
theorem Phys.MapsTo.split {x : Nat} (hlo : lo ≤ mid) (hhi : mid ≤ hi) :
    m.MapsTo pt lo hi x ↔ m.MapsTo pt lo mid x ∨ m.MapsTo pt mid hi x := by
  constructor
  · rintro ⟨b, e, hb, hb', h⟩
    by_cases hmid : b < mid
    · exact .inl ⟨b, e, hb, hmid, h⟩
    · exact .inr ⟨b, e, Nat.not_lt.mp hmid, hb', h⟩
  · rintro (⟨b, e, hb, hb', h⟩ | ⟨b, e, hb, hb', h⟩)
    · exact ⟨b, e, hb, by omega, h⟩
    · exact ⟨b, e, by omega, hb', h⟩

theorem Unmapped.append (hlo : lo ≤ mid) (hhi : mid ≤ hi) (hmax : hi ≤ maxva)
    (h : Unmapped pt lo mid doFree m m') (h' : Unmapped pt mid hi doFree m' m'') :
    Unmapped pt lo hi doFree m m'' := by
  refine ⟨h'.table, h'.tables.trans h.tables, fun b hb => ?_, fun x => ?_, fun x hx hnot => ?_,
    fun i hi => (h'.upper i hi).trans (h.upper i hi)⟩
  · rw [h'.lookup b hb, h.lookup b hb]
    by_cases hlow : b < mid
    · by_cases hin : lo ≤ b
      · rw [if_neg (by omega), if_pos ⟨hin, hlow⟩, if_pos (by omega)]
      · rw [if_neg (by omega), if_neg (by omega), if_neg (by omega)]
    · by_cases hin : b < hi
      · rw [if_pos (by omega), if_pos (by omega)]
      · rw [if_neg (by omega), if_neg (by omega), if_neg (by omega)]
  · rw [h'.free, h.free, h.mapsTo hmax, Phys.MapsTo.split hlo hhi, or_assoc, and_or_left]
  · rw [Phys.MapsTo.split hlo hhi, and_or_left, not_or] at hnot
    have hnot' : ¬ (doFree = true ∧ m'.MapsTo pt mid hi x) := by
      rw [h.mapsTo hmax]
      exact hnot.2
    rw [h'.others x (h.tables ▸ hx) hnot', h.others x hx hnot.1]

theorem Releasable.next (h : Releasable m pt lo hi) (hlo : lo ≤ mid)
    (hmax : hi ≤ maxva) (hmid : mid % pgsize = 0) (hu : Unmapped pt lo mid doFree m m') :
    Releasable m' pt mid hi := by
  have hsame : ∀ b, mid ≤ b → b < hi → m'.lookup pt b = m.lookup pt b := fun b hlo hhi => by
    rw [hu.lookup b (by omega), if_neg (by omega)]
  refine ⟨fun b e hb hb' he => ?_, fun b c e f hb hb' hc hc' he hf => ?_⟩
  · rw [hsame b hb hb'] at he
    obtain ⟨hframe, htable, hfree⟩ := h.frame b e (by omega) hb' he
    refine ⟨hframe, hu.tables ▸ htable, fun hx => ?_⟩
    obtain hx | ⟨-, c, f, hc, hc', hf, hfe⟩ := (hu.free _).mp hx
    · exact hfree hx
    · have hpage := h.once c b f e hc (by omega) (by omega) hb' hf he hfe
      have hpg : pgsize = 4096 := rfl
      rw [hpg] at hpage hmid
      omega
  · rw [hsame b hb hb'] at he
    rw [hsame c hc hc'] at hf
    exact h.once b c e f (by omega) hb' (by omega) hc' he hf

theorem Unmapped.clear (h : Table m' pt) (ha : a % pgsize = 0) (hmax : a + pgsize ≤ maxva)
    (hpage : ∀ x ∈ m.tables pt, m'.page x = m.page x) (htables : m'.tables pt = m.tables pt)
    (ht : node m.link pt (path a) = some t)
    (hfree : ∀ x, x ∈ m'.free ↔ x ∈ m.free ∨ doFree = true ∧ m.MapsTo pt a (a + pgsize) x)
    (hothers : ∀ x, x ∉ m.tables pt → ¬ (doFree = true ∧ m.MapsTo pt a (a + pgsize) x) → m'.page x = m.page x) :
    Unmapped pt a (a + pgsize) doFree m (m'.setWord t (px 0 a) 0) := by
  have hpg : pgsize = 4096 := rfl
  have hamax : a < maxva := by omega
  have htmem : t ∈ m.tables pt := mem_nodes ht (path_length a).le
  have ht' : node m'.link pt (path a) = some t := (node_same hpage (path_length a).le).trans ht
  obtain ⟨hgrown, htables', hlookup⟩ := h.setLeaf hamax ht' (by decide : 0 < 2 ^ 64)
  refine ⟨hgrown.table, htables'.trans htables, fun b hb => ?_, hfree, fun x hx hnot => ?_, fun i hi => ?_⟩
  · have hrange : (a ≤ b ∧ b < a + pgsize) ↔ b / pgsize = a / pgsize := by
      rw [hpg] at ha ⊢
      omega
    rw [hlookup b hb, has_zero, lookup_congr hb hpage]
    by_cases hin : b / pgsize = a / pgsize
    · rw [if_pos hin, if_pos (hrange.mpr hin), if_neg Bool.false_ne_true]
    · rw [if_neg hin, if_neg (mt hrange.mp hin)]
  · have hne : x ≠ t := fun he => hx (he ▸ htmem)
    rw [Phys.setWord_page_ne _ _ _ hne, hothers x hx hnot]
  · rw [hgrown.upper i hi, Phys.word_congr (hpage pt root_mem)]

theorem unmapPage_ensures (h : Table m pt) (ha : a % pgsize = 0) (hmax : a + pgsize ≤ maxva) (doFree : Bool)
    (hrel : doFree = true → Releasable m pt a (a + pgsize)) :
    Completes (unmapPage pt doFree a) m (fun _ m' => Unmapped pt a (a + pgsize) doFree m m') := by
  have hpg : pgsize = 4096 := rfl
  have hamax : a < maxva := by omega
  have hpage := page_iff ha
  have hnone : m.lookup pt a = none → Unmapped pt a (a + pgsize) doFree m m := by
    intro hnone
    have hall : ∀ b, a ≤ b → b < a + pgsize → m.lookup pt b = none := fun b hlo hhi => by
      rw [lookup_page m pt (by omega) hamax ((hpage b).mp ⟨hlo, hhi⟩), hnone]
    have hmaps : ∀ x, ¬ m.MapsTo pt a (a + pgsize) x := by
      rintro x ⟨b, e, hlo, hhi, hb, -⟩
      rw [hall b hlo hhi] at hb
      exact absurd hb (by simp)
    refine ⟨h, rfl, fun b hb => ?_, fun x => (or_iff_left fun hc => hmaps x hc.2).symm, fun _ _ _ => rfl,
      fun _ _ => rfl⟩
    split
    · next hin => exact hall b hin.1 hin.2
    · rfl
  unfold unmapPage
  refine Ensures.bind_eq (readPte_eq m pt hamax) ?_
  cases ht : node m.link pt (path a) with
  | none => exact .pure (hnone (by rw [lookup_eq m pt hamax, ht]; rfl))
  | some t =>
    have hlookup := lookup_of_node hamax ht
    obtain ⟨e, he⟩ : ∃ e, e = m.word t (px 0 a) := ⟨_, rfl⟩
    dsimp only [Option.map_some]
    rw [← he] at hlookup ⊢
    split
    · next hv =>
      rw [if_pos hv] at hlookup
      have hmaps : ∀ x, m.MapsTo pt a (a + pgsize) x ↔ x = pte2pa e := by
        intro x
        constructor
        · rintro ⟨b, f, hlo, hhi, hb, rfl⟩
          rw [lookup_page m pt (by omega) hamax ((hpage b).mp ⟨hlo, hhi⟩), hlookup] at hb
          rw [Option.some.inj hb]
        · rintro rfl
          exact ⟨a, e, Nat.le_refl a, by rw [hpg]; omega, hlookup, rfl⟩
      cases doFree with
      | false =>
        apply Ensures.modify
        refine .clear h ha hmax (fun _ _ => rfl) rfl ht (fun x => ?_) fun _ _ _ => rfl
        exact (or_iff_left fun hc => Bool.false_ne_true hc.1).symm
      | true =>
        obtain ⟨hframe, hnot, hused⟩ := (hrel rfl).frame a e (Nat.le_refl a) (by rw [hpg]; omega) hlookup
        rw [if_pos rfl]
        refine (kfree_ensures hframe).seq ?_
        rintro _ m₁ ⟨hfree, hsame⟩
        have hpages : ∀ x ∈ m.tables pt, m₁.page x = m.page x := fun x hx => hsame x fun hc => hnot (hc ▸ hx)
        have hmem : ∀ x, x ∈ m₁.free ↔ x ∈ m.free ∨ x = pte2pa e := fun x => by
          rw [hfree, List.mem_cons, or_comm]
        have hinuse : ∀ x ∈ m.tables pt, x ∉ m₁.free := by
          intro x hx hc
          obtain hc | hc := (hmem x).mp hc
          · exact h.used x hx hc
          · exact hnot (hc ▸ hx)
        obtain ⟨htable, htables⟩ := h.congr hpages hinuse (h.heap.cons hframe hused hfree)
        apply Ensures.modify
        refine .clear htable ha hmax hpages htables ht (fun x => ?_) fun x _ hx => hsame x fun hc => hx ?_
        · rw [hmem, hmaps, eq_self, true_and]
        · exact ⟨rfl, (hmaps x).mpr hc⟩
    · next hv => exact .pure (hnone (by rw [hlookup, if_neg hv]))

theorem unmapLoop_ensures (rounds : Nat) (h : Table m pt) (ha : a % pgsize = 0)
    (hmax : a + rounds * pgsize ≤ maxva) (doFree : Bool)
    (hrel : doFree = true → Releasable m pt a (a + rounds * pgsize)) :
    Completes (unmapLoop pt doFree (a + rounds * pgsize) rounds a) m
      (fun _ m' => Unmapped pt a (a + rounds * pgsize) doFree m m') := by
  have hpg : pgsize = 4096 := rfl
  induction rounds generalizing m a with
  | zero => exact .pure (.empty h (by omega) doFree)
  | succ rounds ih =>
    have hnext : a + (rounds + 1) * pgsize = a + pgsize + rounds * pgsize := by
      rw [Nat.succ_mul]
      omega
    rw [hnext] at hmax hrel ⊢
    have hpage : doFree = true → Releasable m pt a (a + pgsize) := fun hd =>
      (hrel hd).mono (Nat.le_refl a) (by omega)
    have hal : (a + pgsize) % pgsize = 0 := by rw [Nat.add_mod_right, ha]
    rw [unmapLoop, if_pos (by rw [hpg]; omega)]
    refine (unmapPage_ensures h ha (by omega) doFree hpage).seq ?_
    intro _ m₁ hu
    refine (ih hu.table hal hmax fun hd => (hrel hd).next (by omega) hmax hal hu).post ?_
    intro _ m₂ hu'
    exact hu.append (by omega) (by omega) hmax hu'

theorem uvmunmap_ensures {npages : Nat} (h : Table m pt) (hva : va % pgsize = 0)
    (hmax : va + npages * pgsize ≤ maxva) (doFree : Bool)
    (hrel : doFree = true → Releasable m pt va (va + npages * pgsize)) :
    Completes (uvmunmap pt va npages doFree) m
      (fun _ m' => Unmapped pt va (va + npages * pgsize) doFree m m') := by
  have hpg : pgsize = 4096 := rfl
  have hlast : (va + npages * pgsize) % 2 ^ 64 = va + npages * pgsize := by
    apply Nat.mod_eq_of_lt
    have hlt : maxva < 2 ^ 64 := by decide
    omega
  have hrounds : (va + npages * pgsize - va + pgsize - 1) / pgsize = npages := by
    rw [hpg]
    omega
  rw [uvmunmap, if_neg (not_not.mpr hva)]
  dsimp only
  rw [hlast, hrounds]
  exact unmapLoop_ensures npages h hva hmax doFree hrel

def MapsRange (pt va k pa perm : Nat) (m m' : Phys) : Prop :=
  (∀ i, i < k → ∃ e, m'.lookup pt (va + i * pgsize) = some e ∧
    pte2pa e = pgRoundDown ((pa + i * pgsize) % 2 ^ 64) ∧ pteFlags e = perm ||| pteV) ∧
  ∀ b, b < maxva → ¬ (va ≤ b ∧ b < va + k * pgsize) → m'.lookup pt b = m.lookup pt b

omit [Layout] in
theorem mapsRange_of_mapped {k : Nat} (hmax : a + k * pgsize ≤ maxva) (hperm : perm < 2 ^ 10)
    (h : ∀ b, b < maxva → m'.lookup pt b = m.mapped pt a k pa perm b) : MapsRange pt a k pa perm m m' := by
  have hpg : pgsize = 4096 := rfl
  rw [hpg] at hmax
  refine ⟨fun i hi => ⟨_, ?_, ?_, entry_flags ((pa + i * pgsize) % 2 ^ 64) hperm⟩, fun b hb hnot => ?_⟩
  · have hoff : (a + i * pgsize - a) / pgsize = i := by
      rw [hpg]
      omega
    rw [h _ (by rw [hpg]; omega), Phys.mapped, if_pos (by rw [hpg]; omega), hoff]
  · exact entry_pa (Nat.mod_lt _ (by decide)) hperm
  · rw [h b hb, Phys.mapped, if_neg hnot]

/-- A page table is a finite map: `mappages` adds the pages of its range, or the first of them if memory runs
out, and `uvmunmap` removes those of its range. -/
theorem page_tables_are_maps (h : Table m pt) :
    (∀ va size pa perm, va % pgsize = 0 → size % pgsize = 0 → va + size ≤ maxva → pa < 2 ^ 64 →
      perm < 2 ^ 10 → (∀ b, va ≤ b → b < va + size → m.lookup pt b = none) →
      Ensures (mappages pt va size pa perm) m
        (fun r m' => Table m' pt ∧ (r = 0 ∧ MapsRange pt va (size / pgsize) pa perm m m' ∨
          r = -1 ∧ ∃ k, k < size / pgsize ∧ MapsRange pt va k pa perm m m'))
        (fun _ m' => size = 0 ∧ m' = m)) ∧
    ∀ va npages doFree, va % pgsize = 0 → va + npages * pgsize ≤ maxva →
      (doFree = true → Releasable m pt va (va + npages * pgsize)) →
      Ensures (uvmunmap pt va npages doFree) m
        (fun _ m' => Table m' pt ∧ ∀ b, b < maxva → m'.lookup pt b =
          if va ≤ b ∧ b < va + npages * pgsize then none else m.lookup pt b) (fun _ _ => False) := by
  refine ⟨fun va size pa perm hva hsize hmax hpa hperm hfree => ?_, fun va npages doFree hva hmax hrel => ?_⟩
  · have hdiv : size / pgsize * pgsize = size := Nat.div_mul_cancel (Nat.dvd_of_mod_eq_zero hsize)
    by_cases hpos : 0 < size
    · refine (mappages_ensures h hva hsize hpos hmax hpa hperm hfree).imp ?_ nofun
      rintro r m' ⟨k, hret, hgrown, hmapped⟩
      have hle : k * pgsize ≤ size := by
        rw [← hdiv]
        exact Nat.mul_le_mul_right _ (by omega)
      have hrange := mapsRange_of_mapped (by omega) hperm hmapped
      refine ⟨hgrown.table, ?_⟩
      obtain ⟨hr, rfl⟩ | ⟨hr, hk⟩ := hret
      · exact .inl ⟨hr, hrange⟩
      · exact .inr ⟨hr, k, hk, hrange⟩
    · have hzero : size = 0 := by omega
      rw [mappages, if_neg (not_not.mpr hva), if_neg (not_not.mpr hsize), if_pos hzero]
      exact .throw ⟨hzero, rfl⟩
  · exact (uvmunmap_ensures h hva hmax doFree hrel).post fun _ m' hu => ⟨hu.table, hu.lookup⟩

end

abbrev smallLayout : Layout := ⟨0x80022000, 0x80007000, by decide, by decide⟩

/-- A memory with an empty page table at `0x80022000` and three free pages. -/
def smallPhys : Phys := ⟨fun _ _ => 0, [0x80023000, 0x80024000, 0x80025000], []⟩

theorem smallPhys_freeList : @FreeList smallLayout smallPhys := by
  refine @FreeList.mk smallLayout _ (by decide) fun p hp => ?_
  obtain rfl | rfl | rfl : p = 0x80023000 ∨ p = 0x80024000 ∨ p = 0x80025000 := by simpa [smallPhys] using hp
  all_goals exact @Frame.mk smallLayout _ (by decide) (by decide) (by decide)

theorem smallPhys_table : @Table smallLayout smallPhys 0x80022000 :=
  (@Table.empty smallLayout _ _ rfl (by decide) smallPhys_freeList).1

/-- One page is mapped, for which two pages are added to the table. -/
theorem page_tables_are_maps_small :
    Ensures (mappages 0x80022000 0 pgsize 0x80030000 pteR) smallPhys
      (fun r m' => r = 0 ∧ m'.free = [0x80025000] ∧
        (r = 0 ∧ MapsRange 0x80022000 0 1 0x80030000 pteR smallPhys m' ∨
          r = -1 ∧ ∃ k, k < 1 ∧ MapsRange 0x80022000 0 k 0x80030000 pteR smallPhys m'))
      (fun _ _ => False) := by
  have hrun : Ensures (mappages 0x80022000 0 pgsize 0x80030000 pteR) smallPhys
      (fun r m' => r = 0 ∧ m'.free = [0x80025000]) (fun _ _ => False) := by
    decide +kernel
  have hempty := (@Table.empty smallLayout smallPhys 0x80022000 rfl (by decide) smallPhys_freeList).2.2
  have hmax : pgsize ≤ maxva := by decide
  have hmaps := (@page_tables_are_maps smallLayout _ _ smallPhys_table).1 0 pgsize 0x80030000 pteR
    (by decide) (by decide) (by decide) (by decide) (by decide) fun b _ hb => hempty b (by omega)
  exact (hrun.and hmaps).imp (fun r m' hr => ⟨hr.1.1, hr.1.2, hr.2.2⟩) fun _ _ he => he.1

end Xv6.Vm
