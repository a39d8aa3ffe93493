import Xv6.Lib.Radix
import Xv6.Vm

namespace Xv6.Vm

open Xv6.Lib Xv6.Lib.Words Xv6.Lib.Radix Function

section Entry

variable {pa perm e f : Nat}

def entry (pa perm : Nat) : Nat := pa2pte pa ||| perm ||| pteV

theorem and_mod_two_pow {k : Nat} (e : Nat) (hf : f < 2 ^ k) : e % 2 ^ k &&& f = e &&& f := by
  apply Nat.eq_of_testBit_eq
  intro i
  rw [Nat.testBit_and, Nat.testBit_and, Nat.testBit_mod_two_pow]
  by_cases hi : i < k
  · rw [decide_eq_true hi, Bool.true_and]
  · have hle : 2 ^ k ≤ 2 ^ i := Nat.pow_le_pow_right Nat.two_pos (Nat.not_lt.mp hi)
    rw [Nat.testBit_lt_two_pow (hf.trans_le hle), Bool.and_false, Bool.and_false]

theorem pteFlags_eq (e : Nat) : pteFlags e = e % 2 ^ 10 := Nat.and_two_pow_sub_one_eq_mod e 10

theorem has_pteFlags (e : Nat) (hf : f < 2 ^ 10) : has (pteFlags e) f = has e f := by
  rw [has, has, pteFlags_eq, and_mod_two_pow e hf]

theorem has_zero (f : Nat) : has 0 f = false := by
  rw [has, Nat.zero_and]
  rfl

theorem or_pteV_lt (hperm : perm < 2 ^ 10) : perm ||| pteV < 2 ^ 10 :=
  Nat.or_lt_two_pow hperm (by decide)

theorem entry_eq (pa : Nat) (hperm : perm < 2 ^ 10) :
    entry pa perm = pa / 2 ^ 12 * 2 ^ 10 + (perm ||| pteV) := by
  have hlow := or_pteV_lt hperm
  rw [entry, pa2pte, Nat.or_assoc, Nat.shiftLeft_eq, Nat.shiftRight_eq_div_pow, Nat.mul_comm,
    ← Nat.two_pow_add_eq_or_of_lt hlow]

theorem entry_flags (pa : Nat) (hperm : perm < 2 ^ 10) : pteFlags (entry pa perm) = perm ||| pteV := by
  have hlow := or_pteV_lt hperm
  rw [pteFlags_eq, entry_eq pa hperm]
  omega

theorem entry_pa (hpa : pa < 2 ^ 64) (hperm : perm < 2 ^ 10) : pte2pa (entry pa perm) = pgRoundDown pa := by
  have hlow := or_pteV_lt hperm
  have hshift : entry pa perm >>> 10 = pa / 2 ^ 12 := by
    rw [entry_eq pa hperm, Nat.shiftRight_eq_div_pow]
    omega
  rw [pte2pa, hshift, Nat.shiftLeft_eq, pgRoundDown, pgsize]
  omega

theorem entry_pa_of_aligned (hpa : pa < 2 ^ 64) (hal : pa % pgsize = 0) (hperm : perm < 2 ^ 10) :
    pte2pa (entry pa perm) = pa := by
  rw [pgsize] at hal
  rw [entry_pa hpa hperm, pgRoundDown, pgsize]
  omega

theorem entry_lt (hpa : pa < 2 ^ 64) (hperm : perm < 2 ^ 10) : entry pa perm < 2 ^ 64 := by
  have hlow := or_pteV_lt hperm
  rw [entry_eq pa hperm]
  omega

theorem has_or_right (e f : Nat) (hf : f ≠ 0) : has (e ||| f) f = true := by
  rw [has, Nat.and_comm, Nat.and_or_distrib_left, Nat.and_self]
  simp only [bne_iff_ne, ne_eq, Nat.or_eq_zero_iff, not_and]
  exact fun _ => hf

theorem entry_valid (pa perm : Nat) : has (entry pa perm) pteV = true := has_or_right _ _ (by decide)

theorem entry_zero (pa : Nat) : entry pa 0 = pa2pte pa ||| pteV := by rw [entry, Nat.or_zero]

end Entry

section Address

variable {a b : Nat}

theorem px_val (level va : Nat) : (px level va).1 = va / 2 ^ (12 + 9 * level) % 512 := by
  rw [px]
  dsimp only
  rw [Nat.shiftRight_eq_div_pow]
  exact Nat.and_two_pow_sub_one_eq_mod _ 9

theorem px_congr (level : Nat) (h : a / pgsize = b / pgsize) : px level a = px level b := by
  apply Fin.ext
  have hsplit : ∀ v : Nat, v / 2 ^ (12 + 9 * level) = v / pgsize / 2 ^ (9 * level) := by
    intro v
    rw [pgsize, Nat.div_div_eq_div_mul, pow_add]
    rfl
  rw [px_val, px_val, hsplit, hsplit, h]

theorem page_of_px (ha : a < maxva) (hb : b < maxva) (h2 : px 2 a = px 2 b) (h1 : px 1 a = px 1 b)
    (h0 : px 0 a = px 0 b) : a / pgsize = b / pgsize := by
  have h2' := congrArg Fin.val h2
  have h1' := congrArg Fin.val h1
  have h0' := congrArg Fin.val h0
  rw [px_val, px_val] at h2' h1' h0'
  rw [maxva] at ha hb
  rw [pgsize]
  norm_num at h2' h1' h0'
  omega

end Address

namespace Phys

variable {m m' : Phys} {p q v : Nat} {i j : Fin 512}

theorem word_congr (h : m'.page p = m.page p) (i : Fin 512) : m'.word p i = m.word p i := by
  rw [word, word, h]

theorem setPage_page_self (m : Phys) (p : Nat) (bytes : Nat → UInt8) : (m.setPage p bytes).page p = bytes :=
  update_self ..

theorem setPage_page_ne (m : Phys) (bytes : Nat → UInt8) (h : q ≠ p) : (m.setPage p bytes).page q = m.page q :=
  update_of_ne h ..

theorem setWord_page_ne (m : Phys) (i : Fin 512) (v : Nat) (h : q ≠ p) :
    (m.setWord p i v).page q = m.page q := setPage_page_ne m _ h

theorem fill_page_ne (m : Phys) (c : UInt8) (h : q ≠ p) : (m.fill p c).page q = m.page q :=
  setPage_page_ne m _ h

theorem word_setWord_self (m : Phys) (p : Nat) (i : Fin 512) (hv : v < 2 ^ 64) :
    (m.setWord p i v).word p i = v := by
  rw [word, setWord, setPage_page_self]
  exact getLE_putLE _ _ _ _ hv

theorem word_setWord_ne (m : Phys) (v : Nat) (h : ¬ (q = p ∧ j = i)) :
    (m.setWord p i v).word q j = m.word q j := by
  obtain rfl | hq := eq_or_ne q p
  · have hij : j.1 ≠ i.1 := fun he => h ⟨rfl, Fin.ext he⟩
    rw [word, setWord, setPage_page_self, getLE_putLE_apart _ _ _ _ _ _ (by omega)]
    rfl
  · exact word_congr (setWord_page_ne m i v hq) j

theorem word_of_zero (h : m.page p = fun _ => 0) (i : Fin 512) : m.word p i = 0 := by
  rw [word, h]
  rfl

end Phys

section Lookup

variable {m m' : Phys} {pt a b t : Nat}

def Phys.link (m : Phys) (p : Nat) (i : Fin 512) : Option Nat :=
  if has (m.word p i) pteV then some (pte2pa (m.word p i)) else none

def Phys.tables (m : Phys) (pt : Nat) : Set Nat := nodes m.link 2 pt

def path (a : Nat) : List (Fin 512) := [px 2 a, px 1 a]

theorem path_length (a : Nat) : (path a).length = 2 := rfl

/-- What `walk` finds without allocation: the entry for an address, if it is valid. -/
def Phys.lookup (m : Phys) (pt a : Nat) : Option Nat :=
  match readPte pt a m with
  | .ok (some (_, pte)) _ => if has pte pteV then some pte else none
  | _ => none

theorem link_congr {x : Nat} (h : m'.page x = m.page x) (i : Fin 512) : m'.link x i = m.link x i := by
  rw [Phys.link, Phys.link, Phys.word_congr h]

theorem descend_false (m : Phys) (p : Nat) (i : Fin 512) : descend p i false m = .ok (m.link p i) m := by
  have hget : ∀ f : Phys → M (Option Nat), (get >>= f) m = f m m := fun _ => rfl
  rw [descend, hget, Phys.link]
  split
  · rfl
  · rfl

theorem walkLevels_false (m : Phys) (level x a : Nat) :
    walkLevels a false (level + 1) x m =
      match m.link x (px (level + 1) a) with
      | none => .ok none m
      | some c => walkLevels a false level c m := by
  rw [walkLevels, bind_of_ok (descend_false m x _)]
  cases m.link x (px (level + 1) a) with
  | none => rfl
  | some c => rfl

theorem walk_false (m : Phys) (pt : Nat) (ha : a < maxva) :
    walk pt a false m = .ok ((node m.link pt (path a)).map fun t => (t, px 0 a)) m := by
  rw [walk, if_neg (Nat.not_le.mpr ha), walkLevels_false, path, node_cons]
  cases h2 : m.link pt (px 2 a) with
  | none => rfl
  | some x =>
    dsimp only
    rw [walkLevels_false, Option.bind_some, node_cons]
    cases h1 : m.link x (px 1 a) with
    | none => rfl
    | some t => rfl

theorem readPte_eq (m : Phys) (pt : Nat) (ha : a < maxva) :
    readPte pt a m =
      .ok ((node m.link pt (path a)).map fun t => ((t, px 0 a), m.word t (px 0 a))) m := by
  rw [readPte, bind_of_ok (walk_false m pt ha)]
  cases node m.link pt (path a) with
  | none => rfl
  | some t => rfl

theorem lookup_eq (m : Phys) (pt : Nat) (ha : a < maxva) :
    m.lookup pt a = (node m.link pt (path a)).bind fun t =>
      if has (m.word t (px 0 a)) pteV then some (m.word t (px 0 a)) else none := by
  rw [Phys.lookup, readPte_eq m pt ha]
  cases node m.link pt (path a) with
  | none => rfl
  | some t => rfl

theorem lookup_of_node (ha : a < maxva) (h : node m.link pt (path a) = some t) :
    m.lookup pt a = if has (m.word t (px 0 a)) pteV then some (m.word t (px 0 a)) else none := by
  rw [lookup_eq m pt ha, h, Option.bind_some]

theorem lookup_valid {e : Nat} (ha : a < maxva) (h : m.lookup pt a = some e) : has e pteV = true := by
  rw [lookup_eq m pt ha] at h
  obtain ⟨t, -, he⟩ := Option.bind_eq_some_iff.mp h
  split at he
  · next hv => rwa [← Option.some.inj he]
  · exact absurd he (by simp)

theorem page_iff (ha : a % pgsize = 0) (b : Nat) : (a ≤ b ∧ b < a + pgsize) ↔ b / pgsize = a / pgsize := by
  have hpg : pgsize = 4096 := rfl
  rw [hpg] at ha ⊢
  omega

theorem lookup_page (m : Phys) (pt : Nat) (ha : a < maxva) (hb : b < maxva) (h : a / pgsize = b / pgsize) :
    m.lookup pt a = m.lookup pt b := by
  rw [lookup_eq m pt ha, lookup_eq m pt hb, path, path, px_congr 2 h, px_congr 1 h, px_congr 0 h]

theorem node_same {p : List (Fin 512)} (h : ∀ x ∈ m.tables pt, m'.page x = m.page x) (hp : p.length ≤ 2) :
    node m'.link pt p = node m.link pt p :=
  node_congr (fun _ x i hq hx => link_congr (h x (mem_nodes hx hq.le)) i) hp

theorem lookup_congr (ha : a < maxva) (h : ∀ x ∈ m.tables pt, m'.page x = m.page x) :
    m'.lookup pt a = m.lookup pt a := by
  rw [lookup_eq m' pt ha, lookup_eq m pt ha, node_same h (path_length a).le]
  cases hx : node m.link pt (path a) with
  | none => rfl
  | some t =>
    rw [Option.bind_some, Option.bind_some, Phys.word_congr (h t (mem_nodes hx (Nat.le_refl 2)))]

end Lookup

section Table

variable [Layout] {m m' : Phys} {pt a b t x y : Nat} {i : Fin 512}

structure Frame (p : Nat) : Prop where
  aligned : p % pgsize = 0
  low : kend ≤ p
  high : p < phystop

structure FreeList (m : Phys) : Prop where
  nodup : m.free.Nodup
  frame : ∀ p ∈ m.free, Frame p

/-- The pages of a page table form a tree of three levels, whose inner entries are no leaves, and none of
them is free. -/
structure Table (m : Phys) (pt : Nat) : Prop where
  tree : Tree m.link 2 pt
  inner : ∀ p x i, p.length < 2 → node m.link pt p = some x → has (m.word x i) pteV = true →
    has (m.word x i) (pteR ||| pteW ||| pteX) = false
  used : ∀ x ∈ m.tables pt, x ∉ m.free
  heap : FreeList m

/-- The table may have got some of the free pages, and nothing else has changed. -/
structure Grown (pt : Nat) (m m' : Phys) : Prop where
  table : Table m' pt
  free : ∀ x ∈ m'.free, x ∈ m.free
  tables : ∀ x, x ∈ m'.tables pt ↔ x ∈ m.tables pt ∨ x ∈ m.free ∧ x ∉ m'.free
  others : ∀ x, x ∉ m.tables pt → x ∉ m.free → m'.page x = m.page x
  upper : ∀ i : Fin 512, 256 ≤ i.1 → m'.word pt i = m.word pt i

theorem Grown.refl (h : Table m pt) : Grown pt m m :=
  ⟨h, fun _ hx => hx, fun _ => (or_iff_left fun hx => hx.2 hx.1).symm, fun _ _ _ => rfl, fun _ _ => rfl⟩

theorem Grown.notMem_tables {x : Nat} (h : Grown pt m m') (ht : x ∉ m.tables pt) (hf : x ∉ m.free) :
    x ∉ m'.tables pt := by
  rw [h.tables]
  exact fun hc => hc.elim ht fun hc => hf hc.1

theorem Grown.trans {m'' : Phys} (h : Grown pt m m') (h' : Grown pt m' m'') : Grown pt m m'' := by
  refine ⟨h'.table, fun x hx => h.free x (h'.free x hx), fun x => ?_, fun x ht hf => ?_,
    fun i hi => (h'.upper i hi).trans (h.upper i hi)⟩
  · rw [h'.tables, h.tables]
    have := h.free x
    have := h'.free x
    tauto
  · rw [h'.others x _ fun hx => hf (h.free x hx), h.others x ht hf]
    rw [h.tables]
    tauto

theorem FreeList.lt (h : FreeList m) {p : Nat} (hp : p ∈ m.free) : p < 2 ^ 64 :=
  (h.frame p hp).high.trans (by decide)

omit [Layout] in
theorem kalloc_ensures (m : Phys) {E : String → Phys → Prop} :
    Ensures kalloc m (fun r m' => (r = none ∧ m'.free = m.free ∧ m'.page = m.page) ∨
      ∃ p, r = some p ∧ m.free = p :: m'.free ∧ ∀ x, x ≠ p → m'.page x = m.page x) E := by
  unfold kalloc
  apply Ensures.bind_get
  split
  · apply Ensures.bind_set
    exact .pure (.inl ⟨rfl, rfl, rfl⟩)
  · split
    · apply Ensures.bind_set
      exact .pure (.inl ⟨rfl, rfl, rfl⟩)
    · next p free hfree =>
      apply Ensures.bind_set
      exact .pure (.inr ⟨p, rfl, hfree, fun x hx => Phys.fill_page_ne _ 5 hx⟩)

theorem FreeList.tail {p : Nat} (h : FreeList m) (hfree : m.free = p :: m'.free) :
    FreeList m' ∧ p ∉ m'.free ∧ Frame p ∧ ∀ x, x ∈ m'.free ↔ x ∈ m.free ∧ x ≠ p := by
  have hnodup := h.nodup
  rw [hfree, List.nodup_cons] at hnodup
  have hmem : ∀ x, x ∈ m.free ↔ x = p ∨ x ∈ m'.free := fun x => by rw [hfree, List.mem_cons]
  refine ⟨⟨hnodup.2, fun x hx => h.frame x ((hmem x).mpr (.inr hx))⟩, hnodup.1, h.frame p ?_, fun x => ?_⟩
  · exact (hmem p).mpr (.inl rfl)
  · rw [hmem]
    constructor
    · exact fun hx => ⟨.inr hx, fun he => hnodup.1 (he ▸ hx)⟩
    · exact fun hx => hx.1.resolve_left hx.2

theorem Table.congr (h : Table m pt) (hpage : ∀ x ∈ m.tables pt, m'.page x = m.page x)
    (hused : ∀ x ∈ m.tables pt, x ∉ m'.free) (heap : FreeList m') :
    Table m' pt ∧ m'.tables pt = m.tables pt := by
  have hnode : ∀ p : List (Fin 512), p.length ≤ 2 → node m'.link pt p = node m.link pt p := fun _ =>
    node_same hpage
  have htables : m'.tables pt = m.tables pt := nodes_congr hnode
  refine ⟨⟨h.tree.congr hnode, fun p x i hp hx hv => ?_, htables ▸ hused, heap⟩, htables⟩
  rw [hnode p hp.le] at hx
  have hword := Phys.word_congr (hpage x (mem_nodes hx hp.le)) i
  rw [hword] at hv ⊢
  exact h.inner p x i hp hx hv

theorem Table.empty (hzero : m.page pt = fun _ => 0) (hpt : pt ∉ m.free) (heap : FreeList m) :
    Table m pt ∧ m.tables pt = {pt} ∧ ∀ a, a < maxva → m.lookup pt a = none := by
  have hlink : ∀ i, m.link pt i = none := fun i => by rw [Phys.link, Phys.word_of_zero hzero, has_zero]; rfl
  have hnode : ∀ {p : List (Fin 512)} {x}, node m.link pt p = some x → p = [] ∧ x = pt := by
    intro p x hx
    cases p with
    | nil => exact ⟨rfl, (Option.some.inj hx).symm⟩
    | cons i p =>
      rw [node_cons, hlink] at hx
      exact absurd hx (by simp)
  have htables : m.tables pt = {pt} := by
    ext x
    constructor
    · rintro ⟨p, -, hp⟩
      exact (hnode hp).2
    · rintro rfl
      exact root_mem
  refine ⟨⟨?_, ?_, ?_, heap⟩, htables, fun a ha => ?_⟩
  · intro p q x _ _ hp hq
    rw [(hnode hp).1, (hnode hq).1]
  · intro p x i _ hp hv
    rw [(hnode hp).2, Phys.word_of_zero hzero, has_zero] at hv
    exact absurd hv Bool.false_ne_true
  · rw [htables]
    rintro x rfl
    exact hpt
  · rw [lookup_eq m pt ha, path, node_cons, hlink]
    rfl

structure Deepened (pt : Nat) (m m' : Phys) : Prop extends Grown pt m m' where
  lookup : ∀ a, a < maxva → m'.lookup pt a = m.lookup pt a

theorem Deepened.refl (h : Table m pt) : Deepened pt m m := ⟨.refl h, fun _ _ => rfl⟩

theorem Deepened.trans {m'' : Phys} (h : Deepened pt m m') (h' : Deepened pt m' m'') : Deepened pt m m'' :=
  ⟨h.toGrown.trans h'.toGrown, fun a ha => (h'.lookup a ha).trans (h.lookup a ha)⟩

theorem Table.graft {p : List (Fin 512)} (h : Table m pt) (hp : node m.link pt p = some x) (hlen : p.length < 2)
    (hi : p = [] → i.1 < 256) (hnone : m.link x i = none) (hfree : m.free = y :: m'.free)
    (hy : m'.page y = fun _ => 0) (hxi : m'.word x i = entry y 0) (hxj : ∀ j, j ≠ i → m'.word x j = m.word x j)
    (hother : ∀ z, z ≠ x → z ≠ y → m'.page z = m.page z) :
    Deepened pt m m' ∧ node m'.link pt (p ++ [i]) = some y := by
  obtain ⟨heap, hynot, hframe, hmem⟩ := h.heap.tail hfree
  have hyfree : y ∈ m.free := by rw [hfree]; exact List.mem_cons_self
  have hnew : y ∉ m.tables pt := fun hy => h.used y hy hyfree
  have hxmem : x ∈ m.tables pt := mem_nodes hp hlen.le
  have hlt : y < 2 ^ 64 := h.heap.lt hyfree
  have hyword : ∀ j, m'.word y j = 0 := Phys.word_of_zero hy
  have hlinky : ∀ j, m'.link y j = none := fun j => by rw [Phys.link, hyword, has_zero]; rfl
  have hlinkx : m'.link x i = some y := by
    rw [Phys.link, hxi, entry_valid, entry_pa_of_aligned hlt hframe.aligned (by decide)]
    rfl
  have hword : ∀ z j, z ≠ y → ¬ (z = x ∧ j = i) → m'.word z j = m.word z j := by
    intro z j hzy hzx
    obtain rfl | hz := eq_or_ne z x
    · exact hxj j fun hj => hzx ⟨rfl, hj⟩
    · exact Phys.word_congr (hother z hz hzy) j
  have hsame : ∀ z j, z ≠ y → ¬ (z = x ∧ j = i) → m'.link z j = m.link z j := by
    intro z j hzy hzx
    rw [Phys.link, Phys.link, hword z j hzy hzx]
  have hnode : ∀ q : List (Fin 512), q.length ≤ 2 →
      node m'.link pt q = if q = p ++ [i] then some y else node m.link pt q := fun q hq =>
    node_graft h.tree hp hlen hnone hnew hlinky hlinkx hsame hq
  have hplen : (p ++ [i]).length ≤ 2 := by
    rw [List.length_append, List.length_singleton]
    exact hlen
  have hpnone : node m.link pt (p ++ [i]) = none := by rw [node_snoc hp, hnone]
  have htables : m'.tables pt = insert y (m.tables pt) := nodes_graft hplen hpnone hnode
  refine ⟨⟨⟨⟨h.tree.graft hnew hnode, ?_, ?_, heap⟩, ?_, ?_, ?_, ?_⟩, ?_⟩, ?_⟩
  · intro q z j hq hz hv
    rw [hnode q hq.le] at hz
    split at hz
    · obtain rfl := Option.some.inj hz
      rw [hyword, has_zero] at hv
      exact absurd hv Bool.false_ne_true
    · have hzy : z ≠ y := fun he => hnew (he ▸ mem_nodes hz hq.le)
      by_cases hzx : z = x ∧ j = i
      · obtain ⟨rfl, rfl⟩ := hzx
        rw [hxi, ← has_pteFlags _ (by decide), entry_flags y (by decide)]
        rfl
      · rw [hword z j hzy hzx] at hv ⊢
        exact h.inner q z j hq hz hv
  · rw [htables]
    rintro z (rfl | hz) hzf
    · exact hynot hzf
    · exact h.used z hz ((hmem z).mp hzf).1
  · exact fun z hz => ((hmem z).mp hz).1
  · intro z
    rw [htables, hmem, Set.mem_insert_iff]
    constructor
    · rintro (rfl | hz)
      · exact .inr ⟨hyfree, fun hc => hc.2 rfl⟩
      · exact .inl hz
    · rintro (hz | ⟨hz, hne⟩)
      · exact .inr hz
      · exact .inl (by_contra fun hzy => hne ⟨hz, hzy⟩)
  · intro z hzt hzf
    exact hother z (fun he => hzt (he ▸ hxmem)) fun he => hzf (he ▸ hyfree)
  · intro j hj
    refine hword pt j (fun he => hnew (he ▸ root_mem)) ?_
    rintro ⟨rfl, rfl⟩
    have hroot : p = [] := h.tree hlen.le (List.length_nil.le.trans (Nat.zero_le 2)) hp rfl
    exact absurd (hi hroot) (Nat.not_lt.mpr hj)
  · intro a ha
    rw [lookup_eq m' pt ha, lookup_eq m pt ha, hnode (path a) (Nat.le_refl 2)]
    split
    · next he =>
      rw [he, hpnone, Option.bind_some, hyword, has_zero]
      rfl
    · cases ht : node m.link pt (path a) with
      | none => rfl
      | some t =>
        have hty : t ≠ y := fun he => hnew (he ▸ mem_nodes ht (Nat.le_refl 2))
        have htx : t ≠ x := by
          rintro rfl
          have hpath := congrArg List.length (h.tree (path_length a).le hlen.le ht hp)
          exact absurd hpath (ne_of_gt hlen)
        rw [Option.bind_some, Option.bind_some, hword t _ hty fun hc => htx hc.1]
  · rw [hnode _ hplen, if_pos rfl]

theorem descend_ensures {p : List (Fin 512)} (h : Table m pt) (hp : node m.link pt p = some x)
    (hlen : p.length < 2) (i : Fin 512) (hi : p = [] → i.1 < 256) :
    Completes (descend x i true) m (fun r m' => Deepened pt m m' ∧
      ∀ c, r = some c → node m'.link pt (p ++ [i]) = some c) := by
  unfold descend
  apply Ensures.bind_get
  dsimp only
  by_cases hv : has (m.word x i) pteV = true
  · rw [if_pos hv]
    refine .pure ⟨.refl h, fun c hc => ?_⟩
    rw [node_snoc hp, Phys.link, if_pos hv]
    exact hc
  · have hnone : m.link x i = none := if_neg hv
    rw [if_neg hv, if_pos rfl]
    refine (kalloc_ensures m).seq ?_
    rintro r m₁ (⟨rfl, hfree, hpage⟩ | ⟨y, rfl, hfree, hpage⟩)
    · have hsame : ∀ z, m₁.page z = m.page z := fun z => congrFun hpage z
      have hnext : Table m₁ pt ∧ m₁.tables pt = m.tables pt := by
        refine h.congr (fun z _ => hsame z) (fun z hz => ?_) ?_
        · rw [hfree]
          exact h.used z hz
        · refine ⟨hfree ▸ h.heap.nodup, hfree ▸ h.heap.frame⟩
      refine .pure ⟨⟨⟨hnext.1, fun z hz => hfree ▸ hz, fun z => ?_, fun z _ _ => hsame z,
        fun j _ => Phys.word_congr (hsame pt) j⟩, fun a ha => ?_⟩, nofun⟩
      · rw [hnext.2, hfree]
        exact (or_iff_left fun hz => hz.2 hz.1).symm
      · exact lookup_congr ha fun z _ => hsame z
    · have hyfree : y ∈ m.free := by rw [hfree]; exact List.mem_cons_self
      have hxy : x ≠ y := fun he => h.used x (mem_nodes hp hlen.le) (he ▸ hyfree)
      have hlt : entry y 0 < 2 ^ 64 := entry_lt (h.heap.lt hyfree) (by decide)
      apply Ensures.bind_modify
      apply Ensures.pure
      rw [← entry_zero]
      obtain ⟨m₂, hm₂⟩ : ∃ m₂, m₂ = (m₁.fill y 0).setWord x i (entry y 0) := ⟨_, rfl⟩
      have hzero : m₂.page y = fun _ => 0 := by
        rw [hm₂, Phys.setWord_page_ne _ _ _ hxy.symm]
        exact Phys.setPage_page_self ..
      have hxi : m₂.word x i = entry y 0 := by rw [hm₂, Phys.word_setWord_self _ x i hlt]
      have hxj : ∀ j, j ≠ i → m₂.word x j = m.word x j := by
        intro j hj
        rw [hm₂, Phys.word_setWord_ne _ _ fun hc => hj hc.2]
        exact Phys.word_congr ((Phys.fill_page_ne _ _ hxy).trans (hpage x hxy)) j
      have hother : ∀ z, z ≠ x → z ≠ y → m₂.page z = m.page z := by
        intro z hzx hzy
        rw [hm₂, Phys.setWord_page_ne _ _ _ hzx, Phys.fill_page_ne _ _ hzy, hpage z hzy]
      have hfree₂ : m.free = y :: m₂.free := by rw [hm₂]; exact hfree
      obtain ⟨hdeep, hnode⟩ := h.graft hp hlen hi hnone hfree₂ hzero hxi hxj hother
      rw [← hm₂]
      exact ⟨hdeep, fun c hc => Option.some.inj hc ▸ hnode⟩

theorem walk_ensures (h : Table m pt) (ha : a < maxva) :
    Completes (walk pt a true) m (fun r m' => Deepened pt m m' ∧
      ∀ ptr, r = some ptr → ptr.2 = px 0 a ∧ node m'.link pt (path a) = some ptr.1) := by
  have hlow : (px 2 a).1 < 256 := by
    have hmv : maxva = 2 ^ 38 := rfl
    rw [px_val]
    norm_num
    omega
  rw [walk, if_neg (Nat.not_le.mpr ha), walkLevels]
  refine (descend_ensures h (p := []) rfl Nat.two_pos _ fun _ => hlow).seq ?_
  rintro r m₁ ⟨hdeep, hnode⟩
  cases r with
  | none => exact .pure ⟨hdeep, nofun⟩
  | some x =>
    dsimp only
    rw [walkLevels]
    refine (descend_ensures hdeep.table (hnode x rfl) Nat.one_lt_two _ nofun).seq ?_
    rintro r m₂ ⟨hdeep', hnode'⟩
    cases r with
    | none => exact .pure ⟨hdeep.trans hdeep', nofun⟩
    | some t =>
      refine .pure ⟨hdeep.trans hdeep', fun ptr hptr => ?_⟩
      obtain rfl := Option.some.inj hptr
      exact ⟨rfl, hnode' t rfl⟩

end Table

end Xv6.Vm
