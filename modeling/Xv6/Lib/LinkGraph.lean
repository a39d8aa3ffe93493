import Mathlib.Data.Finset.Card
import Xv6.Lib.Family

namespace Xv6.Lib

open Finset Function

variable {α : Type} [DecidableEq α]

inductive Kind
  | free
  | dir
  | leaf
  deriving DecidableEq

/-- A graph of directories and leaves: `down d x` links from directory `d` to `x`, one link from
each directory `d` up to `up d`, and a stored number of links to each node. -/
structure LinkGraph (α : Type) where
  kind : α → Kind
  up : α → α
  down : α → α → Nat
  nlink : α → Int

namespace LinkGraph

variable (S : Finset α) (root : α)

def inDeg (G : LinkGraph α) (x : α) : Nat := ∑ d ∈ S, G.down d x

/-- `d` is a linked directory whose upward link goes to `x`. -/
def IsKid (G : LinkGraph α) (x d : α) : Prop :=
  G.kind d = .dir ∧ d ≠ root ∧ G.up d = x ∧ 0 < G.inDeg S d

instance (G : LinkGraph α) (x d : α) : Decidable (G.IsKid S root x d) :=
  inferInstanceAs (Decidable (_ ∧ _ ∧ _ ∧ _))

def kids (G : LinkGraph α) (x : α) : Nat := (S.filter (G.IsKid S root x)).card

inductive Reach (G : LinkGraph α) : α → Prop
  | root : Reach G root
  | step {d x : α} : Reach G d → 0 < G.down d x → Reach G x

/-- The links form a tree of directories with leaves, and the stored numbers agree with it, up to `pend`; in a
`strict` graph also those of leaves. In a `safe` one no upward link goes to an unlinked directory. -/
structure Ok (strict safe : Prop) (pend : α → Nat) (G : LinkGraph α) : Prop where
  mem : ∀ x, G.kind x ≠ .free → x ∈ S
  root_dir : G.kind root = .dir
  root_in : G.inDeg S root = 0
  root_up : G.up root = root
  of_dir : ∀ d x, 0 < G.down d x → G.kind d = .dir
  to_node : ∀ d x, 0 < G.down d x → G.kind x ≠ .free
  leaf : ∀ x, G.kind x = .leaf → (G.inDeg S x + pend x : Int) ≤ G.nlink x
  leaf_strict : strict → ∀ x, G.kind x = .leaf → G.nlink x = G.inDeg S x + pend x
  dir : ∀ x, G.kind x = .dir →
    G.nlink x = (if x = root then 1 else G.inDeg S x) + G.kids S root x + pend x
  dir_one : ∀ x, G.kind x = .dir → G.inDeg S x ≤ 1
  up_of : ∀ d x, 0 < G.down d x → G.kind x = .dir → G.up x = d
  up_ne : ∀ x, G.kind x = .dir → x ≠ root → G.up x ≠ x
  orphan_kids : ∀ d, G.kind d = .dir → d ≠ root → G.inDeg S d = 0 → G.kids S root d = 0
  orphan_empty : strict → ∀ d, G.kind d = .dir → d ≠ root → G.inDeg S d = 0 → ∀ x, G.down d x = 0
  up_linked : safe → ∀ d, G.kind d = .dir →
    G.kind (G.up d) = .dir ∧ (G.up d = root ∨ 0 < G.inDeg S (G.up d))
  reach : strict → ∀ x, 0 < G.inDeg S x → G.Reach root x

variable {S root} {strict safe : Prop} {pend : α → Nat} {G : LinkGraph α} {d x y : α}

omit [DecidableEq α] in
theorem exists_link (h : 0 < G.inDeg S x) : ∃ d ∈ S, 0 < G.down d x := by
  by_contra hn
  push Not at hn
  have : G.inDeg S x = 0 := sum_eq_zero (fun d hd => Nat.le_zero.mp (hn d hd))
  omega

omit [DecidableEq α] in
theorem down_le_inDeg (hd : d ∈ S) (x : α) : G.down d x ≤ G.inDeg S x :=
  single_le_sum (f := fun d => G.down d x) (fun _ _ => Nat.zero_le _) hd

theorem kids_congr {G G' : LinkGraph α} (h : ∀ d, G'.IsKid S root x d ↔ G.IsKid S root x d) :
    G'.kids S root x = G.kids S root x :=
  congrArg card (filter_congr (fun d _ => h d))

theorem kids_eq_zero (h : ∀ d, ¬ G.IsKid S root x d) : G.kids S root x = 0 :=
  card_eq_zero.mpr (filter_eq_empty_iff.mpr (fun d _ => h d))

theorem kids_add {G G' : LinkGraph α} {k : α} (hk : k ∈ S) (hnew : G'.IsKid S root x k)
    (hold : ¬ G.IsKid S root x k) (h : ∀ d, d ≠ k → (G'.IsKid S root x d ↔ G.IsKid S root x d)) :
    G'.kids S root x = G.kids S root x + 1 := by
  have hins : S.filter (G'.IsKid S root x) = insert k (S.filter (G.IsKid S root x)) := by
    ext d
    obtain rfl | hd := eq_or_ne d k
    · simp [hk, hnew]
    · simp [hd, h d hd]
  rw [kids, hins, card_insert_of_notMem (by simp [hold]), kids]

namespace Ok

variable {d x : α}

section

variable (h : G.Ok S root strict safe pend)
include h

theorem link_mem (hl : 0 < G.down d x) : d ∈ S :=
  h.mem d (by rw [h.of_dir d x hl]; decide)

theorem inDeg_pos (hl : 0 < G.down d x) :
    0 < G.inDeg S x :=
  lt_of_lt_of_le hl (down_le_inDeg (h.link_mem hl) x)

theorem kid_down (hk : G.IsKid S root x d) :
    0 < G.down x d := by
  obtain ⟨e, -, he⟩ := exists_link hk.2.2.2
  rw [← hk.2.2.1, h.up_of e d he hk.1]
  exact he

theorem holder (hl : 0 < G.down d x) (hx : G.kind x = .dir) : d = root ∨ 0 < G.inDeg S d := by
  by_contra hn
  push Not at hn
  have hd := h.of_dir d x hl
  have hkids := h.orphan_kids d hd hn.1 (by omega)
  have hkid : G.IsKid S root d x := by
    refine ⟨hx, ?_, h.up_of d x hl hx, h.inDeg_pos hl⟩
    rintro rfl
    exact absurd h.root_in (by have := h.inDeg_pos hl; omega)
  have : x ∈ S.filter (G.IsKid S root d) :=
    mem_filter.mpr ⟨h.mem x (by rw [hx]; decide), hkid⟩
  rw [kids, card_eq_zero] at hkids
  rw [hkids] at this
  exact absurd this (notMem_empty x)

theorem holder_strict (hs : strict) (hl : 0 < G.down d x) :
    d = root ∨ 0 < G.inDeg S d := by
  by_contra hn
  push Not at hn
  have := h.orphan_empty hs d (h.of_dir d x hl) hn.1 (by omega) x
  omega

theorem root_pos : 0 < G.nlink root := by
  rw [h.dir root h.root_dir, if_pos rfl]
  omega

theorem nlink_pos (hx : 0 < G.inDeg S x) : 0 < G.nlink x := by
  obtain ⟨d, -, hd⟩ := exists_link hx
  cases hk : G.kind x with
  | free => exact absurd hk (h.to_node d x hd)
  | leaf =>
    have := h.leaf x hk
    omega
  | dir =>
    have hr : x ≠ root := by
      rintro rfl
      have := h.root_in
      omega
    rw [h.dir x hk, if_neg hr]
    omega

theorem unlinked (hn : G.nlink x = 0) :
    x ≠ root ∧ G.inDeg S x = 0 := by
  constructor
  · rintro rfl
    have := h.root_pos
    omega
  · by_contra hne
    have := h.nlink_pos (Nat.pos_of_ne_zero hne)
    omega

theorem dir_pos_iff (hx : G.kind x = .dir) (hp : pend x = 0) :
    0 < G.nlink x ↔ x = root ∨ 0 < G.inDeg S x := by
  constructor
  · intro hpos
    by_contra hn
    push Not at hn
    have h0 : G.inDeg S x = 0 := by omega
    have := h.dir x hx
    rw [if_neg hn.1, h.orphan_kids x hx hn.1 h0, h0, hp] at this
    omega
  · rintro (rfl | hin)
    · exact h.root_pos
    · exact h.nlink_pos hin

end

end Ok

def bump (pend : α → Nat) (x : α) : α → Nat := update pend x (pend x + 1)

def link (G : LinkGraph α) (d x : α) : LinkGraph α :=
  { G with down := fun e y => if e = d ∧ y = x then G.down e y + 1 else G.down e y }

def unlink (G : LinkGraph α) (d x : α) : LinkGraph α :=
  { G with down := fun e y => if e = d ∧ y = x then G.down e y - 1 else G.down e y }

def drop (G : LinkGraph α) (x : α) : LinkGraph α :=
  { G with kind := update G.kind x .free, down := update G.down x fun _ => 0 }

def setLinks (G : LinkGraph α) (x : α) (n : Int) : LinkGraph α :=
  { G with nlink := update G.nlink x n }

/-- `x` becomes a node of kind `k`, with an upward link to `u` and one link that is not yet there. -/
def addNode (G : LinkGraph α) (k : Kind) (u x : α) : LinkGraph α :=
  { G with kind := update G.kind x k, up := update G.up x u, nlink := update G.nlink x 1 }

def addLeaf (G : LinkGraph α) (x : α) : LinkGraph α :=
  { G with kind := update G.kind x .leaf, nlink := update G.nlink x 1 }

def addDir (G : LinkGraph α) (d x : α) : LinkGraph α :=
  { G with kind := update G.kind x .dir, up := update G.up x d, nlink := update G.nlink x 1 }

/-- `H` is `G` with one link more, from `d` to `x`; the stored numbers may differ. -/
structure OneMore (d x : α) (G H : LinkGraph α) : Prop where
  kind : H.kind = G.kind
  up : H.up = G.up
  down : ∀ e y, H.down e y = G.down e y + if e = d ∧ y = x then 1 else 0

theorem oneMore_link (d x : α) (n : α → Int) : OneMore d x G { G.link d x with nlink := n } := by
  refine ⟨rfl, rfl, fun e y => ?_⟩
  show (if e = d ∧ y = x then G.down e y + 1 else G.down e y) = _
  split <;> rfl

theorem oneMore_unlink (h : 0 < G.down d x) (n : α → Int) :
    OneMore d x { G.unlink d x with nlink := n } G := by
  refine ⟨rfl, rfl, fun e y => ?_⟩
  show G.down e y = (if e = d ∧ y = x then G.down e y - 1 else G.down e y) + _
  split
  · next he => rw [he.1, he.2, Nat.sub_add_cancel h]
  · rfl

namespace OneMore

variable {H : LinkGraph α} {d x : α}

theorem inDeg (h : OneMore d x G H) (hd : d ∈ S) (y : α) :
    H.inDeg S y = G.inDeg S y + if y = x then 1 else 0 := by
  rw [LinkGraph.inDeg, sum_congr rfl fun e _ => h.down e y, sum_add_distrib]
  congr 1
  by_cases hy : y = x
  · simp [hy, hd]
  · simp [hy]

theorem inDeg_of_ne (h : OneMore d x G H) (hd : d ∈ S) {y : α} (hy : y ≠ x) : H.inDeg S y = G.inDeg S y := by
  rw [h.inDeg hd, if_neg hy, Nat.add_zero]

theorem down_of_ne (h : OneMore d x G H) (e : α) {y : α} (hy : y ≠ x) : H.down e y = G.down e y := by
  rw [h.down, if_neg fun hc => hy hc.2, Nat.add_zero]

theorem isKid_of_ne (h : OneMore d x G H) (hd : d ∈ S) (y : α) {e : α} (he : e ≠ x) :
    H.IsKid S root y e ↔ G.IsKid S root y e := by
  rw [IsKid, IsKid, h.kind, h.up, h.inDeg_of_ne hd he]

/-- The link to a directory whose upward link goes to `d` makes it a kid of `d`. -/
theorem kids (h : OneMore d x G H) (hd : d ∈ S) (hm : x ∈ S) (hx : G.kind x = .dir) (hroot : x ≠ root)
    (hup : G.up x = d) (hin : G.inDeg S x = 0) (y : α) :
    H.kids S root y = G.kids S root y + if y = d then 1 else 0 := by
  have hold : ¬ G.IsKid S root y x := fun hc => hc.2.2.2.ne' hin
  have hnew : H.IsKid S root y x ↔ y = d := by
    rw [IsKid, h.kind, h.up, h.inDeg hd, if_pos rfl]
    exact ⟨fun hc => hc.2.2.1.symm.trans hup, fun hy => ⟨hx, hroot, hup.trans hy.symm, Nat.succ_pos _⟩⟩
  by_cases hy : y = d
  · rw [if_pos hy]
    exact kids_add hm (hnew.mpr hy) hold fun e he => h.isKid_of_ne hd y he
  · rw [if_neg hy, Nat.add_zero]
    refine kids_congr fun e => ?_
    by_cases he : e = x
    · exact he ▸ iff_of_false (fun hc => hy (hnew.mp hc)) hold
    · exact h.isKid_of_ne hd y he

end OneMore

theorem drop_kind (h : y ≠ x) : (G.drop x).kind y = G.kind y := update_of_ne h ..

theorem kind_of_drop {k : Kind} (h : (G.drop x).kind y = k) (hk : k ≠ .free) :
    y ≠ x ∧ G.kind y = k := by
  have hy : y ≠ x := by
    rintro rfl
    exact hk (h.symm.trans (update_self ..))
  exact ⟨hy, (drop_kind hy).symm.trans h⟩

theorem drop_down (h : d ≠ x) (y : α) : (G.drop x).down d y = G.down d y :=
  congrFun (update_of_ne h ..) y

theorem down_of_drop (h : 0 < (G.drop x).down d y) : d ≠ x ∧ 0 < G.down d y := by
  have hd : d ≠ x := by
    rintro rfl
    have hnone : (G.drop d).down d y = 0 := by simp [drop]
    omega
  exact ⟨hd, drop_down hd y ▸ h⟩

theorem inDeg_drop (hx : x ∈ S) (y : α) :
    (G.drop x).inDeg S y + G.down x y = G.inDeg S y := by
  have h := sum_change hx (f := fun e => G.down e y) (g := fun e => (G.drop x).down e y)
    (fun e _ he => by simp [drop, he])
  have hg : (G.drop x).down x y = 0 := by simp [drop]
  simp only [hg] at h
  exact h

end LinkGraph

end Xv6.Lib
