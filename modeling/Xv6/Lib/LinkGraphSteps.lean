import Xv6.Lib.LinkGraph

namespace Xv6.Lib.LinkGraph

open Finset Function

variable {α : Type} {S : Finset α} {root x y : α} {strict safe : Prop} {pend : α → Nat}
  {G G' : LinkGraph α}

theorem Reach.mono (h : G.Reach root x) (hd : ∀ d y, G.down d y ≤ G'.down d y) : G'.Reach root x := by
  induction h with
  | root => exact .root
  | step _ hl ih => exact .step ih (lt_of_lt_of_le hl (hd _ _))

theorem Reach.avoid (h : G.Reach root y) (hx : ∀ z, G.down x z = 0)
    (hd : ∀ d z, z ≠ x → G'.down d z = G.down d z) (hy : y ≠ x) : G'.Reach root y := by
  induction h with
  | root => exact .root
  | @step d z _ hl ih =>
    have hdx : d ≠ x := by
      rintro rfl
      rw [hx] at hl
      exact absurd hl (lt_irrefl 0)
    exact .step (ih hdx) (by rw [hd d z hy]; exact hl)

theorem ne_free (h : G.kind x = .dir) : G.kind x ≠ .free := by
  rw [h]
  nofun

theorem ne_of_kind {k l : Kind} (hx : G.kind x = k) (hy : G.kind y = l) (h : k ≠ l) : x ≠ y := by
  rintro rfl
  exact h (hx.symm.trans hy)

variable [DecidableEq α]

theorem bump_self (pend : α → Nat) (x : α) : bump pend x x = pend x + 1 := update_self ..

theorem bump_of_ne (pend : α → Nat) (h : y ≠ x) : bump pend x y = pend y :=
  update_of_ne h ..

theorem bump_apply (c : α → Nat) (i j : α) :
    bump c i j = c j + if i = j then 1 else 0 := by
  by_cases h : i = j
  · rw [h, bump_self, if_pos rfl]
  · rw [bump_of_ne c (Ne.symm h), if_neg h, add_zero]

def liveLinks (S : Finset α) (G : LinkGraph α) (x : α) : Nat :=
  ∑ d ∈ S, if G.kind d = .dir ∧ 0 < G.nlink d then (if G.up d = x then 1 else 0) + G.down d x else 0

theorem liveLinks_eq (hroot : root ∈ S)
    (hdead : ∀ d, ¬ (G.kind d = .dir ∧ 0 < G.nlink d) → G.down d x = 0)
    (hlive : ∀ d, (G.kind d = .dir ∧ 0 < G.nlink d) ∧ G.up d = x ↔
      G.IsKid S root x d ∨ d = root ∧ x = root) :
    G.liveLinks S x = G.kids S root x + (if x = root then 1 else 0) + G.inDeg S x := by
  have hsum : G.liveLinks S x =
      (S.filter fun d => (G.kind d = .dir ∧ 0 < G.nlink d) ∧ G.up d = x).card + G.inDeg S x := by
    rw [liveLinks, card_filter, inDeg, ← sum_add_distrib]
    refine sum_congr rfl fun d _ => ?_
    by_cases hl : G.kind d = .dir ∧ 0 < G.nlink d
    · simp only [hl, if_true, true_and, and_self]
    · simp only [hl, if_false, false_and, hdead d hl]
  rw [hsum, filter_congr fun d _ => hlive d]
  obtain rfl | hr := eq_or_ne x root
  · have hins : (S.filter fun d => G.IsKid S x x d ∨ d = x ∧ x = x) = insert x (S.filter (G.IsKid S x x)) := by
      ext d
      rw [mem_filter, mem_insert, mem_filter]
      constructor
      · rintro ⟨hm, hkid | ⟨rfl, -⟩⟩
        · exact .inr ⟨hm, hkid⟩
        · exact .inl rfl
      · rintro (rfl | ⟨hm, hkid⟩)
        · exact ⟨hroot, .inr ⟨rfl, rfl⟩⟩
        · exact ⟨hm, .inl hkid⟩
    rw [hins, card_insert_of_notMem (fun hc => (mem_filter.mp hc).2.2.1 rfl), if_pos rfl]
    rfl
  · rw [if_neg hr, filter_congr fun d _ => or_iff_left fun hc => hr hc.2]
    rfl

/-- `H` is `G` with the only link to the directory `x`, from `d`, which counts it. -/
structure DirLink (S : Finset α) (root d x : α) (G H : LinkGraph α) : Prop extends OneMore d x G H where
  mem : d ∈ S
  kid : x ∈ S
  dir : G.kind x = .dir
  holder : G.kind d = .dir
  ne : x ≠ root
  ne_holder : x ≠ d
  upto : G.up x = d
  new : G.inDeg S x = 0
  nlink : ∀ y, H.nlink y = G.nlink y + if y = d then 1 else 0

namespace DirLink

variable {H : LinkGraph α} {d x : α}

section

variable (h : DirLink S root d x G H)
include h

theorem down_le (e y : α) : G.down e y ≤ H.down e y :=
  (Nat.le_add_right _ _).trans_eq (h.down e y).symm

theorem inDeg_le (y : α) : G.inDeg S y ≤ H.inDeg S y :=
  sum_le_sum fun e _ => h.down_le e y

theorem kids_of_ne {y : α} (hy : y ≠ d) : H.kids S root y = G.kids S root y := by
  rw [h.kids h.mem h.kid h.dir h.ne h.upto h.new, if_neg hy, Nat.add_zero]

theorem total (y : α) :
    (H.inDeg S y + pend y : Int) = G.inDeg S y + bump pend x y := by
  rw [h.inDeg h.mem, bump_apply]
  by_cases hy : y = x
  · rw [if_pos hy, if_pos hy.symm]
    omega
  · rw [if_neg hy, if_neg (Ne.symm hy)]
    rfl

theorem nlink_leaf {y : α} (hy : G.kind y = .leaf) : H.nlink y = G.nlink y := by
  rw [h.nlink, if_neg (ne_of_kind hy h.holder nofun), Int.add_zero]

theorem dir_iff (y : α) :
    H.nlink y = (if y = root then 1 else H.inDeg S y) + H.kids S root y + pend y ↔
      G.nlink y = (if y = root then 1 else G.inDeg S y) + G.kids S root y + bump pend x y := by
  have hsum : (H.inDeg S y + pend y : Int) = G.inDeg S y + bump pend x y := h.total y
  have hkids := h.kids h.mem h.kid h.dir h.ne h.upto h.new y
  have hlinks : H.nlink y - G.nlink y = H.kids S root y - G.kids S root y := by
    rw [h.nlink, hkids]
    split <;> omega
  by_cases hr : y = root
  · have hy : bump pend x y = pend y := bump_of_ne pend (hr ▸ h.ne.symm)
    rw [if_pos hr, if_pos hr]
    omega
  · rw [if_neg hr, if_neg hr]
    omega

end

end DirLink

namespace Ok

theorem congr (h : G.Ok S root strict safe pend) (hk : G'.kind = G.kind) (hd : G'.down = G.down)
    (hu : ∀ x, G.kind x = .dir → G'.up x = G.up x) (hn : ∀ x, G.kind x ≠ .free → G'.nlink x = G.nlink x) :
    G'.Ok S root strict safe pend := by
  have hin : ∀ x, G'.inDeg S x = G.inDeg S x := fun x => by simp only [inDeg, hd]
  have hkid : ∀ x d, G'.IsKid S root x d ↔ G.IsKid S root x d := by
    intro x d
    simp only [IsKid, hk, hin]
    constructor
    · rintro ⟨h1, h2, h3, h4⟩
      exact ⟨h1, h2, hu d h1 ▸ h3, h4⟩
    · rintro ⟨h1, h2, h3, h4⟩
      exact ⟨h1, h2, (hu d h1).trans h3, h4⟩
  have hkids : ∀ x, G'.kids S root x = G.kids S root x := fun x => kids_congr (hkid x)
  constructor
  · exact fun x hx => h.mem x (hk ▸ hx)
  · rw [hk]
    exact h.root_dir
  · rw [hin]
    exact h.root_in
  · rw [hu root h.root_dir]
    exact h.root_up
  · intro d x hl
    rw [hk]
    exact h.of_dir d x (hd ▸ hl)
  · intro d x hl
    rw [hk]
    exact h.to_node d x (hd ▸ hl)
  · intro x hx
    rw [hk] at hx
    rw [hin, hn x (by rw [hx]; decide)]
    exact h.leaf x hx
  · intro hs x hx
    rw [hk] at hx
    rw [hin, hn x (by rw [hx]; decide)]
    exact h.leaf_strict hs x hx
  · intro x hx
    rw [hk] at hx
    rw [hin, hkids, hn x (by rw [hx]; decide)]
    exact h.dir x hx
  · intro x hx
    rw [hin]
    exact h.dir_one x (hk ▸ hx)
  · intro d x hl hx
    rw [hk] at hx
    rw [hu x hx]
    exact h.up_of d x (hd ▸ hl) hx
  · intro x hx hr
    rw [hk] at hx
    rw [hu x hx]
    exact h.up_ne x hx hr
  · intro d hx hr h0
    rw [hkids]
    exact h.orphan_kids d (hk ▸ hx) hr (hin d ▸ h0)
  · intro hs d hx hr h0 x
    rw [hd]
    exact h.orphan_empty hs d (hk ▸ hx) hr (hin d ▸ h0) x
  · intro hs d hx
    rw [hk] at hx
    rw [hu d hx, hk, hin]
    exact h.up_linked hs d hx
  · intro hs x hx
    exact (h.reach hs x (hin x ▸ hx)).mono (fun d y => le_of_eq (by rw [hd]))

variable {q : α → Nat} {d x y : α}

theorem relink (h : G.Ok S root strict safe pend) {n : α → Int} (hn : ∀ x, n x - q x = G.nlink x - pend x) :
    ({ G with nlink := n } : LinkGraph α).Ok S root strict safe q where
  mem := h.mem
  root_dir := h.root_dir
  root_in := h.root_in
  root_up := h.root_up
  of_dir := h.of_dir
  to_node := h.to_node
  leaf x hx := by
    have h1 : (G.inDeg S x + pend x : Int) ≤ G.nlink x := h.leaf x hx
    have h2 := hn x
    show (G.inDeg S x + q x : Int) ≤ n x
    omega
  leaf_strict hs x hx := by
    have h1 : G.nlink x = G.inDeg S x + pend x := h.leaf_strict hs x hx
    have h2 := hn x
    show n x = G.inDeg S x + q x
    omega
  dir x hx := by
    have h1 : G.nlink x = (if x = root then 1 else G.inDeg S x) + G.kids S root x + pend x := h.dir x hx
    have h2 := hn x
    show n x = (if x = root then 1 else G.inDeg S x) + G.kids S root x + q x
    omega
  dir_one := h.dir_one
  up_of := h.up_of
  up_ne := h.up_ne
  orphan_kids := h.orphan_kids
  orphan_empty := h.orphan_empty
  up_linked := h.up_linked
  reach hs x hx := (h.reach hs x hx).mono (fun _ _ => le_refl _)

theorem inc (h : G.Ok S root strict safe pend) (x : α) :
    (G.setLinks x (G.nlink x + 1)).Ok S root strict safe (bump pend x) := by
  refine h.relink fun y => ?_
  obtain rfl | hy := eq_or_ne y x
  · rw [bump_self, update_self]
    omega
  · rw [bump_of_ne pend hy, update_of_ne hy]

theorem dec (h : G.Ok S root strict safe (bump pend x)) :
    (G.setLinks x (G.nlink x - 1)).Ok S root strict safe pend := by
  refine h.relink fun y => ?_
  obtain rfl | hy := eq_or_ne y x
  · rw [bump_self, update_self]
    omega
  · rw [bump_of_ne pend hy, update_of_ne hy]

section

variable (h : G.Ok S root strict safe pend)
include h

theorem free_in (hx : G.kind x = .free) :
    G.inDeg S x = 0 := by
  by_contra hne
  obtain ⟨d, -, hd⟩ := exists_link (Nat.pos_of_ne_zero hne)
  exact h.to_node d x hd hx

theorem kids_empty (hx : ∀ y, G.down x y = 0) :
    G.kids S root x = 0 := kids_eq_zero fun d hd => (h.kid_down hd).ne' (hx d)

theorem free_down (hx : G.kind x ≠ .dir) (y : α) :
    G.down x y = 0 := by
  by_contra hne
  exact hx (h.of_dir x y (Nat.pos_of_ne_zero hne))

theorem kids_addNode (hx : G.kind x = .free) (k : Kind) (u y : α) :
    (G.addNode k u x).kids S root y = G.kids S root y := by
  refine kids_congr fun e => ?_
  obtain rfl | he := eq_or_ne e x
  · refine iff_of_false (fun hc => hc.2.2.2.ne' (h.free_in hx)) fun hc => ?_
    exact absurd (hx.symm.trans hc.1) nofun
  · have hkind : (G.addNode k u x).kind e = G.kind e := update_of_ne he ..
    have hup : (G.addNode k u x).up e = G.up e := update_of_ne he ..
    rw [IsKid, IsKid, hkind, hup]
    exact Iff.rfl

theorem addNode {k : Kind} {u : α} (hx : G.kind x = .free) (hm : x ∈ S)
    (hp : pend x = 0) (hk : k = .dir → G.kind u = .dir ∧ (safe → u = root ∨ 0 < G.inDeg S u)) :
    (G.addNode k u x).Ok S root strict safe (bump pend x) := by
  have hne : ∀ y, G.kind y ≠ .free → y ≠ x := fun y hy he => hy (he ▸ hx)
  have hroot : root ≠ x := hne root (ne_free h.root_dir)
  have hkind : ∀ y, y ≠ x → (G.addNode k u x).kind y = G.kind y := fun y hy => update_of_ne hy ..
  have hkx : (G.addNode k u x).kind x = k := update_self ..
  have hup : ∀ y, y ≠ x → (G.addNode k u x).up y = G.up y := fun y hy => update_of_ne hy ..
  have hupx : (G.addNode k u x).up x = u := update_self ..
  have hnl : ∀ y, y ≠ x → (G.addNode k u x).nlink y = G.nlink y := fun y hy => update_of_ne hy ..
  have hnlx : (G.addNode k u x).nlink x = 1 := update_self ..
  have hin0 : (G.addNode k u x).inDeg S x = 0 := h.free_in hx
  have hnode : ∀ y, G.kind y ≠ .free → (G.addNode k u x).kind y = G.kind y := fun y hy => hkind y (hne y hy)
  have hkids := h.kids_addNode hx k u
  have hfree : ∀ y, G.down x y = 0 := h.free_down (by rw [hx]; decide)
  have hkx0 : G.kids S root x = 0 := h.kids_empty hfree
  constructor
  · intro y hy
    by_cases hyx : y = x
    · exact hyx ▸ hm
    · exact h.mem y (hkind y hyx ▸ hy)
  · rw [hkind root hroot]
    exact h.root_dir
  · exact h.root_in
  · rw [hup root hroot]
    exact h.root_up
  · intro e y he
    rw [hnode e (ne_free (h.of_dir e y he))]
    exact h.of_dir e y he
  · intro e y he
    rw [hnode y (h.to_node e y he)]
    exact h.to_node e y he
  · intro y hy
    by_cases hyx : y = x
    · rw [hyx, hnlx, bump_self, hp, hin0]
      exact le_refl _
    · rw [hnl y hyx, bump_of_ne pend hyx]
      exact h.leaf y (hkind y hyx ▸ hy)
  · intro hs y hy
    by_cases hyx : y = x
    · rw [hyx, hnlx, bump_self, hp, hin0]
      rfl
    · rw [hnl y hyx, bump_of_ne pend hyx]
      exact h.leaf_strict hs y (hkind y hyx ▸ hy)
  · intro y hy
    by_cases hyx : y = x
    · rw [hyx, hnlx, hin0, hkids, hkx0, bump_self, hp]
      simp only [if_neg hroot.symm]
      rfl
    · rw [hnl y hyx, hkids, bump_of_ne pend hyx]
      exact h.dir y (hkind y hyx ▸ hy)
  · intro y hy
    by_cases hyx : y = x
    · rw [hyx, hin0]
      exact Nat.zero_le 1
    · exact h.dir_one y (hkind y hyx ▸ hy)
  · intro e y he hy
    have hyx := hne y (h.to_node e y he)
    rw [hup y hyx]
    exact h.up_of e y he (hkind y hyx ▸ hy)
  · intro y hy hr
    by_cases hyx : y = x
    · rw [hyx] at hy ⊢
      rw [hupx]
      exact hne u (ne_free (hk (hkx.symm.trans hy)).1)
    · rw [hup y hyx]
      exact h.up_ne y (hkind y hyx ▸ hy) hr
  · intro e he hr h0
    rw [hkids]
    by_cases hex : e = x
    · exact hex ▸ hkx0
    · exact h.orphan_kids e (hkind e hex ▸ he) hr h0
  · intro hs e he hr h0 y
    by_cases hex : e = x
    · rw [hex]
      exact hfree y
    · exact h.orphan_empty hs e (hkind e hex ▸ he) hr h0 y
  · intro hs e he
    by_cases hex : e = x
    · rw [hex] at he ⊢
      obtain ⟨hu, hlinked⟩ := hk (hkx.symm.trans he)
      rw [hupx, hnode u (ne_free hu)]
      exact ⟨hu, hlinked hs⟩
    · obtain ⟨hu, hlinked⟩ := h.up_linked hs e (hkind e hex ▸ he)
      rw [hup e hex, hnode _ (ne_free hu)]
      exact ⟨hu, hlinked⟩
  · exact fun hs y hy => (h.reach hs y hy).mono (fun _ _ => le_refl _)

theorem addLeaf (hx : G.kind x = .free) (hm : x ∈ S)
    (hp : pend x = 0) : (G.addLeaf x).Ok S root strict safe (bump pend x) := by
  have hnode := h.addNode (k := .leaf) (u := G.up x) hx hm hp nofun
  rw [LinkGraph.addNode, update_eq_self] at hnode
  exact hnode

theorem addDir (hx : G.kind x = .free) (hm : x ∈ S)
    (hp : pend x = 0) (hd : G.kind d = .dir) (hl : safe → d = root ∨ 0 < G.inDeg S d) :
    (G.addDir d x).Ok S root strict safe (bump pend x) := h.addNode hx hm hp fun _ => ⟨hd, hl⟩

theorem leafLinks (hx : G.kind x = .leaf) {down : α → α → Nat} (hoff : ∀ d y, y ≠ x → down d y = G.down d y)
    (hdir : ∀ d, 0 < down d x → G.kind d = .dir ∧ (strict → d = root ∨ 0 < G.inDeg S d))
    (hq : ∀ y, y ≠ x → q y = pend y)
    (hsum : ({ G with down := down } : LinkGraph α).inDeg S x + q x = G.inDeg S x + pend x) :
    ({ G with down := down } : LinkGraph α).Ok S root strict safe q := by
  set H : LinkGraph α := { G with down := down } with hH
  have hin : ∀ y, y ≠ x → H.inDeg S y = G.inDeg S y := fun y hy =>
    sum_congr rfl (fun d _ => hoff d y hy)
  have hne : ∀ y, G.kind y = .dir → y ≠ x := by
    rintro y hy rfl
    rw [hx] at hy
    cases hy
  have hkids : ∀ y, H.kids S root y = G.kids S root y := by
    refine fun y => kids_congr fun d => and_congr_right fun hd => ?_
    rw [hin d (hne d hd)]
  constructor
  · exact h.mem
  · exact h.root_dir
  · rw [hin root (hne root h.root_dir)]
    exact h.root_in
  · exact h.root_up
  · intro d y hl
    by_cases hy : y = x
    · exact (hdir d (hy ▸ hl)).1
    · exact h.of_dir d y (hoff d y hy ▸ hl)
  · intro d y hl
    by_cases hy : y = x
    · show G.kind y ≠ .free
      rw [hy, hx]
      exact nofun
    · exact h.to_node d y (hoff d y hy ▸ hl)
  · intro y hy
    have hleaf := h.leaf y hy
    obtain rfl | hyx := eq_or_ne y x
    · show (H.inDeg S y + q y : Int) ≤ G.nlink y
      omega
    · rw [hin y hyx, hq y hyx]
      exact hleaf
  · intro hs y hy
    have hleaf := h.leaf_strict hs y hy
    obtain rfl | hyx := eq_or_ne y x
    · show G.nlink y = H.inDeg S y + q y
      omega
    · rw [hin y hyx, hq y hyx]
      exact hleaf
  · intro y hy
    rw [hin y (hne y hy), hkids, hq y (hne y hy)]
    exact h.dir y hy
  · intro y hy
    rw [hin y (hne y hy)]
    exact h.dir_one y hy
  · exact fun d y hl hy => h.up_of d y (hoff d y (hne y hy) ▸ hl) hy
  · exact h.up_ne
  · intro d hd hr h0
    rw [hkids]
    exact h.orphan_kids d hd hr (hin d (hne d hd) ▸ h0)
  · intro hs d hd hr h0 y
    rw [hin d (hne d hd)] at h0
    by_cases hy : y = x
    · by_contra hl
      rcases (hdir d (Nat.pos_of_ne_zero (hy ▸ hl))).2 hs with he | he
      · exact hr he
      · omega
    · exact (hoff d y hy).trans (h.orphan_empty hs d hd hr h0 y)
  · intro hs d hd
    obtain ⟨hu, hlinked⟩ := h.up_linked hs d hd
    refine ⟨hu, ?_⟩
    show G.up d = root ∨ 0 < H.inDeg S (G.up d)
    rw [hin _ (hne _ hu)]
    exact hlinked
  · have hfix : ∀ y, G.Reach root y → y ≠ x → H.Reach root y := fun y hy =>
      hy.avoid (h.free_down (by rw [hx]; decide)) hoff
    intro hs y hy
    obtain rfl | hyx := eq_or_ne y x
    · obtain ⟨d, -, hd⟩ := exists_link hy
      obtain ⟨hkd, hl⟩ := hdir d hd
      refine .step (hfix d ?_ (hne d hkd)) hd
      rcases hl hs with rfl | hl
      · exact .root
      · exact h.reach hs d hl
    · exact hfix y (h.reach hs y (hin y hyx ▸ hy)) hyx

end

theorem link (h : G.Ok S root strict safe (bump pend x)) (hx : G.kind x = .leaf)
    (hd : G.kind d = .dir) (hl : strict → d = root ∨ 0 < G.inDeg S d) :
    (G.link d x).Ok S root strict safe pend := by
  have hm : d ∈ S := h.mem d (by rw [hd]; decide)
  refine h.leafLinks hx (fun e y hy => if_neg (fun hc => hy hc.2)) ?_ ?_ ?_
  · intro e he
    by_cases hed : e = d
    · exact hed ▸ ⟨hd, hl⟩
    · rw [if_neg (fun hc => hed hc.1)] at he
      exact ⟨h.of_dir e x he, fun hs => h.holder_strict hs he⟩
  · exact fun y hy => (bump_of_ne pend hy).symm
  · have hmore : (G.link d x).inDeg S x = G.inDeg S x + if x = x then 1 else 0 :=
      (oneMore_link d x G.nlink).inDeg hm x
    rw [if_pos rfl] at hmore
    rw [bump_self]
    show (G.link d x).inDeg S x + _ = _
    omega

section

variable (h : G.Ok S root strict safe pend)
include h

theorem unlinkLeaf (hx : G.kind x = .leaf)
    (hl : 0 < G.down d x) : (G.unlink d x).Ok S root strict safe (bump pend x) := by
  refine h.leafLinks hx (fun e y hy => if_neg (fun hc => hy hc.2)) ?_ ?_ ?_
  · intro e he
    have : 0 < G.down e x := by
      by_cases hed : e = d
      · exact hed ▸ hl
      · rwa [if_neg (fun hc => hed hc.1)] at he
    exact ⟨h.of_dir e x this, fun hs => h.holder_strict hs this⟩
  · exact fun y hy => bump_of_ne pend hy
  · have hmore : G.inDeg S x = (G.unlink d x).inDeg S x + if x = x then 1 else 0 :=
      (oneMore_unlink hl G.nlink).inDeg (h.link_mem hl) x
    rw [if_pos rfl] at hmore
    rw [bump_self]
    show (G.unlink d x).inDeg S x + _ = _
    omega

theorem orphan_down_dir (hroot : x ≠ root) (hin : G.inDeg S x = 0) (hy : G.kind y = .dir) : G.down x y = 0 := by
  by_contra hl
  rcases h.holder (Nat.pos_of_ne_zero hl) hy with hr | hr
  · exact hroot hr
  · omega

theorem orphan_down (hs : strict) (hroot : x ≠ root) (hin : G.inDeg S x = 0) (y : α) : G.down x y = 0 := by
  by_cases hx : G.kind x = .dir
  · exact h.orphan_empty hs x hx hroot hin y
  · exact h.free_down hx y

theorem inDeg_drop_dir (hx : G.kind x ≠ .free) (hroot : x ≠ root)
    (hin : G.inDeg S x = 0) (hy : G.kind y = .dir) : (G.drop x).inDeg S y = G.inDeg S y := by
  have hdeg := inDeg_drop (G := G) (h.mem x hx) y
  rw [h.orphan_down_dir hroot hin hy] at hdeg
  exact hdeg

theorem kids_drop (hx : G.kind x ≠ .free) (hroot : x ≠ root)
    (hin : G.inDeg S x = 0) (y : α) : (G.drop x).kids S root y = G.kids S root y := by
  refine kids_congr fun d => ⟨?_, ?_⟩
  · rintro ⟨hd, hr, hup, hpos⟩
    obtain ⟨-, hd⟩ := kind_of_drop hd nofun
    exact ⟨hd, hr, hup, h.inDeg_drop_dir hx hroot hin hd ▸ hpos⟩
  · rintro ⟨hd, hr, hup, hpos⟩
    have hdx : d ≠ x := by
      rintro rfl
      omega
    exact ⟨(drop_kind hdx).trans hd, hr, hup, (h.inDeg_drop_dir hx hroot hin hd).symm ▸ hpos⟩

theorem drop (hx : G.kind x ≠ .free) (hn : G.nlink x = 0) :
    (G.drop x).Ok S root strict safe pend := by
  obtain ⟨hroot, hin0⟩ := h.unlinked hn
  have hne : ∀ y, 0 < G.inDeg S y → y ≠ x := by
    rintro y hy rfl
    omega
  have hdeg := inDeg_drop (G := G) (h.mem x hx)
  have hin : ∀ y, G.kind y = .dir → (G.drop x).inDeg S y = G.inDeg S y := fun y =>
    h.inDeg_drop_dir hx hroot hin0
  have hdir : ∀ y, (G.drop x).kind y = .dir → y ≠ x ∧ G.kind y = .dir := fun y hy => kind_of_drop hy nofun
  constructor
  · exact fun y hy => h.mem y ((kind_of_drop rfl hy).2 ▸ hy)
  · exact (drop_kind hroot.symm).trans h.root_dir
  · rw [hin root h.root_dir]
    exact h.root_in
  · exact h.root_up
  · intro d y hl
    obtain ⟨hd, hl⟩ := down_of_drop hl
    rw [drop_kind hd]
    exact h.of_dir d y hl
  · intro d y hl
    obtain ⟨-, hl⟩ := down_of_drop hl
    rw [drop_kind (hne y (h.inDeg_pos hl))]
    exact h.to_node d y hl
  · intro y hy
    have h1 := h.leaf y (kind_of_drop hy nofun).2
    have h2 := hdeg y
    show ((G.drop x).inDeg S y + pend y : Int) ≤ G.nlink y
    omega
  · intro hs y hy
    have h1 := h.leaf_strict hs y (kind_of_drop hy nofun).2
    have h2 := hdeg y
    have h3 := h.orphan_down hs hroot hin0 y
    show G.nlink y = (G.drop x).inDeg S y + pend y
    omega
  · intro y hy
    obtain ⟨-, hy⟩ := hdir y hy
    rw [hin y hy, h.kids_drop hx hroot hin0]
    exact h.dir y hy
  · intro y hy
    obtain ⟨-, hy⟩ := hdir y hy
    rw [hin y hy]
    exact h.dir_one y hy
  · exact fun d y hl hy => h.up_of d y (down_of_drop hl).2 (hdir y hy).2
  · exact fun y hy => h.up_ne y (hdir y hy).2
  · intro d hd hr h0
    obtain ⟨-, hd⟩ := hdir d hd
    rw [h.kids_drop hx hroot hin0]
    exact h.orphan_kids d hd hr (hin d hd ▸ h0)
  · intro hs d hd hr h0 y
    by_contra hl
    obtain ⟨-, hl⟩ := down_of_drop (Nat.pos_of_ne_zero hl)
    obtain ⟨-, hd⟩ := hdir d hd
    exact hl.ne' (h.orphan_empty hs d hd hr (hin d hd ▸ h0) y)
  · intro hs d hd
    obtain ⟨hu, hlinked⟩ := h.up_linked hs d (hdir d hd).2
    have hux : G.up d ≠ x := hlinked.elim (fun he => he ▸ hroot.symm) (hne _)
    refine ⟨(drop_kind hux).trans hu, ?_⟩
    show G.up d = root ∨ 0 < (G.drop x).inDeg S (G.up d)
    rw [hin _ hu]
    exact hlinked
  · intro hs y hy
    have hpos : 0 < G.inDeg S y := hy.trans_le ((Nat.le_add_right _ _).trans_eq (hdeg y))
    refine (h.reach hs y hpos).mono fun d z => ?_
    by_cases hd : d = x
    · rw [hd, h.orphan_down hs hroot hin0 z]
      exact Nat.zero_le _
    · exact le_of_eq (drop_down hd z).symm

end

theorem dirLink_link (h : G.Ok S root strict safe q) (hx : G.kind x = .dir)
    (hroot : x ≠ root) (hup : G.up x = d) (hin : G.inDeg S x = 0) (hd : G.kind d = .dir) :
    DirLink S root d x G ((G.link d x).setLinks d (G.nlink d + 1)) where
  toOneMore := oneMore_link d x _
  mem := h.mem d (ne_free hd)
  kid := h.mem x (ne_free hx)
  dir := hx
  holder := hd
  ne := hroot
  ne_holder := fun he => h.up_ne x hx hroot (hup.trans he.symm)
  upto := hup
  new := hin
  nlink := fun y => by
    by_cases hy : y = d
    · rw [if_pos hy, hy]
      exact update_self ..
    · rw [if_neg hy, Int.add_zero]
      exact update_of_ne hy ..

theorem dirLink_unlink (h : G.Ok S root strict safe pend) (hx : G.kind x = .dir)
    (hl : 0 < G.down d x) : DirLink S root d x ((G.unlink d x).setLinks d (G.nlink d - 1)) G := by
  have hmore : OneMore d x ((G.unlink d x).setLinks d (G.nlink d - 1)) G := oneMore_unlink hl _
  have hone : G.inDeg S x = 1 := le_antisymm (h.dir_one x hx) (h.inDeg_pos hl)
  have hroot : x ≠ root := by
    rintro rfl
    exact absurd h.root_in (by omega)
  have hup := h.up_of d x hl hx
  refine ⟨hmore, h.link_mem hl, h.mem x (ne_free hx), hx, h.of_dir d x hl, hroot,
    fun he => h.up_ne x hx hroot (hup.trans he.symm), hup, ?_, fun y => ?_⟩
  · have hsum := hmore.inDeg (h.link_mem hl) x
    rw [if_pos rfl] at hsum
    omega
  · by_cases hy : y = d
    · have hd : ((G.unlink d x).setLinks d (G.nlink d - 1)).nlink d = G.nlink d - 1 := update_self ..
      rw [if_pos hy, hy, hd, Int.sub_add_cancel]
    · rw [if_neg hy, Int.add_zero]
      exact (update_of_ne hy ..).symm

theorem unlinkDir (h : G.Ok S root strict safe pend) (hx : G.kind x = .dir) (hl : 0 < G.down d x)
    (hempty : ∀ y, G.down x y = 0) (hlast : safe → ∀ e, G.kind e = .dir → e ≠ x → G.up e ≠ x) :
    ((G.unlink d x).setLinks d (G.nlink d - 1)).Ok S root strict safe (bump pend x) := by
  set H := (G.unlink d x).setLinks d (G.nlink d - 1)
  have hmore : DirLink S root d x H G := h.dirLink_unlink hx hl
  have hroot := hmore.ne
  have hin : ∀ y, y ≠ x → H.inDeg S y = G.inDeg S y := fun y hy => (hmore.inDeg_of_ne hmore.mem hy).symm
  have hkids : ∀ y, y ≠ d → H.kids S root y = G.kids S root y := fun y hy => (hmore.kids_of_ne hy).symm
  have hold : ∀ e y, 0 < H.down e y → y ≠ x ∧ 0 < G.down e y := by
    intro e y he
    have hpos : 0 < G.down e y := he.trans_le (hmore.down_le e y)
    refine ⟨?_, hpos⟩
    rintro rfl
    exact (he.trans_le (down_le_inDeg (h.link_mem hpos) y)).ne' hmore.new
  constructor
  · exact h.mem
  · exact h.root_dir
  · rw [hin root hroot.symm]
    exact h.root_in
  · exact h.root_up
  · exact fun e y he => h.of_dir e y (hold e y he).2
  · exact fun e y he => h.to_node e y (hold e y he).2
  · intro y hy
    rw [← hmore.total, ← hmore.nlink_leaf hy]
    exact h.leaf y hy
  · intro hs y hy
    rw [← hmore.total, ← hmore.nlink_leaf hy]
    exact h.leaf_strict hs y hy
  · exact fun y hy => (hmore.dir_iff y).mp (h.dir y hy)
  · exact fun y hy => (hmore.inDeg_le y).trans (h.dir_one y hy)
  · exact fun e y he hy => h.up_of e y (hold e y he).2 hy
  · exact h.up_ne
  · intro e he hr h0
    by_cases hex : e = x
    · rw [hex, hkids x hmore.ne_holder]
      exact h.kids_empty hempty
    · rw [hin e hex] at h0
      have hed : e ≠ d := by
        rintro rfl
        rcases h.holder hl hx with hr' | hr'
        · exact hr hr'
        · omega
      rw [hkids e hed]
      exact h.orphan_kids e he hr h0
  · intro hs e he hr h0 y
    by_contra hne
    obtain ⟨-, hl'⟩ := hold e y (Nat.pos_of_ne_zero hne)
    have hex : e ≠ x := by
      rintro rfl
      exact hl'.ne' (hempty y)
    rw [hin e hex] at h0
    exact hl'.ne' (h.orphan_empty hs e he hr h0 y)
  · intro hs e he
    obtain ⟨hu, hlinked⟩ := h.up_linked hs e he
    refine ⟨hu, ?_⟩
    have hux : G.up e ≠ x := by
      by_cases hex : e = x
      · rw [hex]
        exact h.up_ne x hx hroot
      · exact hlast hs e he hex
    show G.up e = root ∨ 0 < H.inDeg S (G.up e)
    rw [hin _ hux]
    exact hlinked
  · intro hs y hy
    have hyx : y ≠ x := by
      rintro rfl
      exact hy.ne' hmore.new
    exact (h.reach hs y (hin y hyx ▸ hy)).avoid hempty (fun e z hz => (hmore.down_of_ne e hz).symm) hyx

theorem linkDir (h : G.Ok S root strict safe (bump pend x)) (hx : G.kind x = .dir) (hroot : x ≠ root)
    (hup : G.up x = d) (hin0 : G.inDeg S x = 0) (hd : G.kind d = .dir) (hl : d = root ∨ 0 < G.inDeg S d) :
    ((G.link d x).setLinks d (G.nlink d + 1)).Ok S root strict safe pend := by
  set H := (G.link d x).setLinks d (G.nlink d + 1)
  have hmore : DirLink S root d x G H := h.dirLink_link hx hroot hup hin0 hd
  have hin : ∀ y, y ≠ x → H.inDeg S y = G.inDeg S y := fun y hy => hmore.inDeg_of_ne hmore.mem hy
  have hdownx : ∀ e, 0 < H.down e x → e = d := by
    intro e he
    by_contra hed
    rw [hmore.down, if_neg (fun hc => hed hc.1), Nat.add_zero] at he
    exact (h.inDeg_pos he).ne' hin0
  have hlinked : ∀ e, e ≠ root → H.inDeg S e = 0 → e ≠ d ∧ G.inDeg S e = 0 := by
    intro e hr h0
    have hle := hmore.inDeg_le e
    refine ⟨?_, by omega⟩
    rintro rfl
    rcases hl with hl | hl
    · exact hr hl
    · omega
  constructor
  · exact h.mem
  · exact h.root_dir
  · rw [hin root hroot.symm]
    exact h.root_in
  · exact h.root_up
  · intro e y he
    by_cases hy : y = x
    · rw [hdownx e (hy ▸ he)]
      exact hd
    · exact h.of_dir e y (hmore.down_of_ne e hy ▸ he)
  · intro e y he
    by_cases hy : y = x
    · rw [hy]
      exact ne_free hx
    · exact h.to_node e y (hmore.down_of_ne e hy ▸ he)
  · intro y hy
    rw [hmore.total, hmore.nlink_leaf hy]
    exact h.leaf y hy
  · intro hs y hy
    rw [hmore.total, hmore.nlink_leaf hy]
    exact h.leaf_strict hs y hy
  · exact fun y hy => (hmore.dir_iff y).mpr (h.dir y hy)
  · intro y hy
    by_cases hyx : y = x
    · rw [hyx, hmore.inDeg hmore.mem, if_pos rfl, hin0]
    · rw [hin y hyx]
      exact h.dir_one y hy
  · intro e y he hy
    by_cases hyx : y = x
    · rw [hyx] at he ⊢
      rw [hdownx e he]
      exact hup
    · exact h.up_of e y (hmore.down_of_ne e hyx ▸ he) hy
  · exact h.up_ne
  · intro e he hr h0
    obtain ⟨hed, h0⟩ := hlinked e hr h0
    rw [hmore.kids_of_ne hed]
    exact h.orphan_kids e he hr h0
  · intro hs e he hr h0 y
    obtain ⟨hed, h0⟩ := hlinked e hr h0
    rw [hmore.down, if_neg (fun hc => hed hc.1), Nat.add_zero]
    exact h.orphan_empty hs e he hr h0 y
  · intro hs e he
    obtain ⟨hu, hr⟩ := h.up_linked hs e he
    exact ⟨hu, hr.imp_right fun hr => hr.trans_le (hmore.inDeg_le _)⟩
  · intro hs y hy
    by_cases hyx : y = x
    · have hdr : G.Reach root d := hl.elim (fun he => he ▸ .root) (h.reach hs d)
      refine hyx ▸ .step (hdr.mono hmore.down_le) ?_
      rw [hmore.down, if_pos ⟨rfl, rfl⟩]
      exact Nat.succ_pos _
    · exact (h.reach hs y (hin y hyx ▸ hy)).mono hmore.down_le

theorem live_iff (h : G.Ok S root strict safe fun _ => 0) :
    (G.kind d = .dir ∧ 0 < G.nlink d) ∧ G.up d = x ↔ G.IsKid S root x d ∨ d = root ∧ x = root := by
  constructor
  · rintro ⟨⟨hd, hl⟩, hu⟩
    obtain rfl | hr := eq_or_ne d root
    · exact .inr ⟨rfl, hu.symm.trans h.root_up⟩
    · exact .inl ⟨hd, hr, hu, ((h.dir_pos_iff hd rfl).mp hl).resolve_left hr⟩
  · rintro (⟨hd, hr, hu, hin⟩ | ⟨rfl, rfl⟩)
    · exact ⟨⟨hd, h.nlink_pos hin⟩, hu⟩
    · exact ⟨⟨h.root_dir, h.root_pos⟩, h.root_up⟩

theorem nlink_eq (h : G.Ok S root strict safe fun _ => 0) (hs : strict) (hx : G.kind x ≠ .free) :
    G.nlink x = G.liveLinks S x := by
  have hdead : ∀ d, ¬ (G.kind d = .dir ∧ 0 < G.nlink d) → G.down d x = 0 := by
    intro d hl
    by_contra hne
    have hpos := Nat.pos_of_ne_zero hne
    have hd := h.of_dir d x hpos
    exact hl ⟨hd, (h.dir_pos_iff hd rfl).mpr (h.holder_strict hs hpos)⟩
  rw [liveLinks_eq (h.mem root (by rw [h.root_dir]; decide)) hdead fun d => h.live_iff]
  cases hk : G.kind x with
  | free => exact absurd hk hx
  | leaf =>
    have hr : x ≠ root := by
      rintro rfl
      rw [h.root_dir] at hk
      cases hk
    have hnone : G.kids S root x = 0 := by
      refine kids_eq_zero fun d hd => ?_
      have := h.of_dir x d (h.kid_down hd)
      rw [hk] at this
      cases this
    have := h.leaf_strict hs x hk
    rw [hnone, if_neg hr]
    omega
  | dir =>
    have := h.dir x hk
    by_cases hr : x = root
    · rw [if_pos hr] at this ⊢
      rw [hr, h.root_in]
      rw [hr] at this
      omega
    · rw [if_neg hr] at this ⊢
      omega

end Ok

end Xv6.Lib.LinkGraph
