import Mathlib.Data.List.Induction
import Mathlib.Data.Set.Basic

namespace Xv6.Lib.Radix

variable {P I : Type}

/-- The page that a path of indices leads to from `r`; `link p i` is the page that entry `i` of page `p`
points to. -/
def node (link : P → I → Option P) : P → List I → Option P
  | r, [] => some r
  | r, i :: is => (link r i).bind fun c => node link c is

/-- Different paths of at most `d` indices lead to different pages. -/
def Tree (link : P → I → Option P) (d : Nat) (r : P) : Prop :=
  ∀ ⦃p q x⦄, p.length ≤ d → q.length ≤ d → node link r p = some x → node link r q = some x → p = q

/-- The pages at most `d` links away. -/
def nodes (link : P → I → Option P) (d : Nat) (r : P) : Set P :=
  { x | ∃ p : List I, p.length ≤ d ∧ node link r p = some x }

variable {link link' : P → I → Option P} {d : Nat} {r c x y : P} {p q : List I} {i j : I}

theorem node_cons : node link r (i :: p) = (link r i).bind fun c => node link c p := rfl

theorem node_append : node link r (p ++ q) = (node link r p).bind fun x => node link x q := by
  induction p generalizing r with
  | nil => rfl
  | cons i p ih =>
    rw [List.cons_append, node_cons, node_cons, Option.bind_assoc]
    simp only [ih]

theorem node_snoc (hp : node link r p = some x) : node link r (p ++ [i]) = link x i := by
  rw [node_append, hp, Option.bind_some, node_cons]
  exact Option.bind_fun_some _

theorem mem_nodes (hp : node link r p = some x) (hd : p.length ≤ d) : x ∈ nodes link d r := ⟨p, hd, hp⟩

theorem root_mem : r ∈ nodes link d r := ⟨[], Nat.zero_le d, rfl⟩

theorem node_congr (h : ∀ q x i, q.length < d → node link r q = some x → link' x i = link x i)
    (hp : p.length ≤ d) : node link' r p = node link r p := by
  induction p using List.reverseRecOn with
  | nil => rfl
  | append_singleton p i ih =>
    rw [List.length_append, List.length_singleton] at hp
    rw [node_append, node_append, ih (by omega)]
    cases hx : node link r p with
    | none => rfl
    | some x =>
      have hlink := h p x i (by omega) hx
      rw [Option.bind_some, Option.bind_some, node_cons, node_cons, hlink]
      rfl

theorem Tree.congr (h : Tree link d r) (hnode : ∀ p : List I, p.length ≤ d → node link' r p = node link r p) :
    Tree link' d r := by
  intro p q x hp hq hpx hqx
  rw [hnode p hp] at hpx
  rw [hnode q hq] at hqx
  exact h hp hq hpx hqx

theorem nodes_congr (hnode : ∀ p : List I, p.length ≤ d → node link' r p = node link r p) :
    nodes link' d r = nodes link d r := by
  ext x
  constructor
  · rintro ⟨p, hd, hp⟩
    exact ⟨p, hd, hnode p hd ▸ hp⟩
  · rintro ⟨p, hd, hp⟩
    exact ⟨p, hd, (hnode p hd).trans hp⟩

theorem node_graft (h : Tree link d r) (hp : node link r p = some x) (hlen : p.length < d)
    (hnone : link x i = none) (hnew : y ∉ nodes link d r) (hy : ∀ j, link' y j = none)
    (hlink : link' x i = some y) (hsame : ∀ z j, z ≠ y → ¬ (z = x ∧ j = i) → link' z j = link z j)
    (hq : q.length ≤ d) [DecidableEq I] :
    node link' r q = if q = p ++ [i] then some y else node link r q := by
  induction q using List.reverseRecOn with
  | nil => rw [if_neg (by simp)]; rfl
  | append_singleton q j ih =>
    rw [List.length_append, List.length_singleton] at hq
    rw [node_append, ih (by omega)]
    by_cases hqp : q = p ++ [i]
    · -- below the new page there is nothing yet
      have hne : q ++ [j] ≠ p ++ [i] := by
        rw [hqp]
        intro he
        have := congrArg List.length he
        simp at this
      have hold : node link r q = none := by rw [hqp, node_snoc hp, hnone]
      rw [if_pos hqp, if_neg hne, Option.bind_some, node_cons, hy, node_append, hold]
      rfl
    · rw [if_neg hqp]
      cases hz : node link r q with
      | none =>
        have hne : q ++ [j] ≠ p ++ [i] := by
          intro he
          obtain ⟨rfl, -⟩ := List.append_inj' he rfl
          rw [hp] at hz
          exact absurd hz (Option.some_ne_none x)
        rw [if_neg hne, node_append, hz]
        rfl
      | some z =>
        have hzy : z ≠ y := fun he => hnew (he ▸ mem_nodes hz (by omega))
        rw [Option.bind_some, node_cons, node_append, hz, Option.bind_some, node_cons]
        by_cases hzx : z = x ∧ j = i
        · obtain ⟨rfl, rfl⟩ := hzx
          rw [hlink, h (by omega) hlen.le hz hp, if_pos rfl]
          rfl
        · have hne : q ++ [j] ≠ p ++ [i] := by
            intro he
            obtain ⟨rfl, hji⟩ := List.append_inj' he rfl
            rw [hp] at hz
            exact hzx ⟨(Option.some.inj hz).symm, List.singleton_inj.mp hji⟩
          rw [hsame z j hzy hzx, if_neg hne]
          rfl

theorem Tree.graft [DecidableEq I] (h : Tree link d r) (hnew : y ∉ nodes link d r)
    (hnode : ∀ q : List I, q.length ≤ d → node link' r q = if q = p then some y else node link r q) :
    Tree link' d r := by
  have hold : ∀ {q : List I}, q.length ≤ d → q ≠ p → node link' r q = some y → False := by
    intro q hq hne hqy
    rw [hnode q hq, if_neg hne] at hqy
    exact hnew (mem_nodes hqy hq)
  intro q s z hq hs hqz hsz
  by_cases hqp : q = p
  · rw [hnode q hq, if_pos hqp] at hqz
    obtain rfl := Option.some.inj hqz
    by_contra hne
    exact hold hs (fun hsp => hne (hqp.trans hsp.symm)) hsz
  · by_cases hsp : s = p
    · rw [hnode s hs, if_pos hsp] at hsz
      obtain rfl := Option.some.inj hsz
      exact (hold hq hqp hqz).elim
    · rw [hnode q hq, if_neg hqp] at hqz
      rw [hnode s hs, if_neg hsp] at hsz
      exact h hq hs hqz hsz

theorem nodes_graft [DecidableEq I] (hlen : p.length ≤ d) (hnone : node link r p = none)
    (hnode : ∀ q : List I, q.length ≤ d → node link' r q = if q = p then some y else node link r q) :
    nodes link' d r = insert y (nodes link d r) := by
  ext z
  constructor
  · rintro ⟨q, hq, hqz⟩
    rw [hnode q hq] at hqz
    split at hqz
    · exact .inl (Option.some.inj hqz).symm
    · exact .inr ⟨q, hq, hqz⟩
  · rintro (rfl | ⟨q, hq, hqz⟩)
    · exact ⟨p, hlen, by rw [hnode p hlen, if_pos rfl]⟩
    · refine ⟨q, hq, ?_⟩
      rw [hnode q hq, if_neg, hqz]
      rintro rfl
      rw [hnone] at hqz
      exact absurd hqz (Option.some_ne_none z).symm

theorem Tree.sub (h : Tree link (d + 1) r) (hc : link r i = some c) : Tree link d c := by
  have hnode : ∀ {p x}, node link c p = some x → node link r (i :: p) = some x := by
    intro p x hp
    rw [node_cons, hc, Option.bind_some, hp]
  intro p q x hp hq hpx hqx
  exact (List.cons.inj (h (Nat.succ_le_succ hp) (Nat.succ_le_succ hq) (hnode hpx) (hnode hqx))).2

theorem mem_nodes_sub (hc : link r i = some c) (hx : x ∈ nodes link d c) : x ∈ nodes link (d + 1) r := by
  obtain ⟨p, hd, hp⟩ := hx
  refine ⟨i :: p, Nat.succ_le_succ hd, ?_⟩
  rw [node_cons, hc, Option.bind_some, hp]

theorem Tree.root_not_mem_sub (h : Tree link (d + 1) r) (hc : link r i = some c) : r ∉ nodes link d c := by
  rintro ⟨p, hd, hp⟩
  have hcons : node link r (i :: p) = some r := by rw [node_cons, hc, Option.bind_some, hp]
  have hlen : (i :: p).length ≤ d + 1 := Nat.succ_le_succ hd
  exact absurd (h hlen (Nat.zero_le _) hcons rfl) (List.cons_ne_nil i p)

theorem Tree.sub_disjoint {c' : P} (h : Tree link (d + 1) r) (hc : link r i = some c) (hc' : link r j = some c')
    (hij : i ≠ j) (hx : x ∈ nodes link d c) : x ∉ nodes link d c' := by
  rintro ⟨q, hdq, hq⟩
  obtain ⟨p, hdp, hp⟩ := hx
  have hcons : node link r (i :: p) = some x := by rw [node_cons, hc, Option.bind_some, hp]
  have hcons' : node link r (j :: q) = some x := by rw [node_cons, hc', Option.bind_some, hq]
  exact hij (List.cons.inj (h (Nat.succ_le_succ hdp) (Nat.succ_le_succ hdq) hcons hcons')).1

theorem mem_nodes_succ : x ∈ nodes link (d + 1) r ↔ x = r ∨ ∃ i c, link r i = some c ∧ x ∈ nodes link d c := by
  constructor
  · rintro ⟨p, hd, hp⟩
    cases p with
    | nil => exact .inl (Option.some.inj hp).symm
    | cons i p =>
      obtain ⟨c, hc, hcp⟩ := Option.bind_eq_some_iff.mp hp
      exact .inr ⟨i, c, hc, p, Nat.le_of_succ_le_succ hd, hcp⟩
  · rintro (rfl | ⟨i, c, hc, hx⟩)
    · exact root_mem
    · exact mem_nodes_sub hc hx

end Xv6.Lib.Radix
