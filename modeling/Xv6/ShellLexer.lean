import Xv6.ShellGrammar

namespace Xv6.Shell

open Lib

/-- What `gettoken` returns for a token. -/
def Tok.code : Tok → UInt8
  | .word _ => letterA
  | .bar => Shell.bar
  | .lparen => Shell.lparen
  | .rparen => Shell.rparen
  | .semi => Shell.semi
  | .amp => Shell.amp
  | .lt => Shell.lt
  | .gt => Shell.gt
  | .append => plus

def Tok.sign : Tok → Option UInt8
  | .word _ => none
  | .append => some Shell.gt
  | t => some t.code

variable {c : UInt8}

theorem symbol_some {t : Tok} (h : symbol c = some t) :
    t.code = c ∧ t.sign = some c := by
  unfold symbol at h
  split_ifs at h <;> cases h <;> subst c <;> exact ⟨rfl, rfl⟩

theorem symbol_none :
    symbol c = none ↔ ¬(c = bar ∨ c = lparen ∨ c = rparen ∨ c = semi ∨ c = amp ∨ c = lt) := by
  unfold symbol
  grind

theorem isWord_iff (hspace : isSpace c = false) :
    isWord c = true ↔ c ≠ gt ∧ symbol c = none := by
  rw [symbol_none]
  simp only [isSpace, decide_eq_false_iff_not] at hspace
  simp only [isWord, symbols, hspace, decide_eq_true_eq, List.mem_cons, List.not_mem_nil]
  grind

theorem tokens_space (cs : List UInt8) (h : isSpace c = true) :
    tokens (c :: cs) = tokens cs := by
  rw [tokens, if_pos h]

theorem tokens_dropWhile (l : List UInt8) : tokens (l.dropWhile isSpace) = tokens l := by
  induction l with
  | nil => rfl
  | cons c cs ih =>
    by_cases h : isSpace c = true
    · rw [List.dropWhile_cons_of_pos h, ih, tokens_space cs h]
    · rw [List.dropWhile_cons_of_neg h]

section Cursor

variable (inp : List UInt8) {cs toks : List UInt8}

def past (p : UInt8 → Bool) (s : Nat) : Nat := s + ((inp.drop s).takeWhile p).length

def rest (s : Nat) : List Tok := tokens (inp.drop s)

/-- The word `x` stands from `w.q` to `w.eq`, where it ends. -/
structure Spans (w : Span) (x : Word) : Prop where
  text : inp.drop w.q = x ++ inp.drop w.eq
  bound : w.eq = w.q + x.length ∧ w.eq ≤ inp.length
  chars : x ≠ [] ∧ ∀ c ∈ x, isWord c = true
  stop : ∀ c ∈ (inp.drop w.eq).head?, isWord c = false

variable {inp}

theorem drop_past (p : UInt8 → Bool) (s : Nat) :
    inp.drop (past inp p s) = (inp.drop s).dropWhile p := by
  have h : (inp.drop s).takeWhile p ++ (inp.drop s).dropWhile p = inp.drop s :=
    List.takeWhile_append_dropWhile
  rw [past, ← List.drop_drop]
  nth_rewrite 2 [← h]
  exact List.drop_left

theorem le_past (p : UInt8 → Bool) (s : Nat) : s ≤ past inp p s := Nat.le_add_right _ _

variable {s : Nat}

theorem past_le (p : UInt8 → Bool) (hs : s ≤ inp.length) : past inp p s ≤ inp.length := by
  have h := (List.takeWhile_prefix p (l := inp.drop s)).length_le
  rw [List.length_drop] at h
  unfold past
  omega

theorem head_past (p : UInt8 → Bool) (s : Nat) :
    ∀ c ∈ (inp.drop (past inp p s)).head?, p c = false := by
  intro c hc
  rw [drop_past] at hc
  have h := List.head?_dropWhile_not p (inp.drop s)
  rw [Option.mem_def.mp hc] at h
  simpa using h

theorem rest_past (s : Nat) : rest inp (past inp isSpace s) = rest inp s := by
  rw [rest, drop_past, tokens_dropWhile, rest]

theorem deref_eq (hs : s ≤ inp.length) :
    deref inp s = pure ((inp.drop s).head?.getD 0) := by
  rw [deref, if_pos hs, List.head?_drop, List.getD_eq_getElem?_getD]

theorem advance_eq (p : UInt8 → Bool) {n : Nat} (hn : n = inp.length - s) :
    advance inp p n s = pure (past inp p s) := by
  induction n generalizing s with
  | zero =>
    have hnil : inp.drop s = [] := List.drop_eq_nil_of_le (by omega)
    simp only [advance, past, hnil, List.takeWhile_nil, List.length_nil, Nat.add_zero]
  | succ n ih =>
    have hs : s < inp.length := by omega
    have hcons : inp.drop s = inp[s] :: inp.drop (s + 1) := List.drop_eq_getElem_cons hs
    simp only [advance, if_pos hs, deref_eq (Nat.le_of_lt hs), hcons, List.head?_cons, Option.getD_some, pure_bind]
    by_cases h : p inp[s] = true
    · rw [if_pos h, ih (by omega)]
      simp only [past, hcons, List.takeWhile_cons_of_pos h, List.length_cons, Nat.add_assoc,
        Nat.add_comm 1]
    · rw [if_neg h]
      simp only [past, hcons, List.takeWhile_cons_of_neg h, List.length_nil, Nat.add_zero]

theorem token_cons {q : Nat} {c : UInt8} (hq : inp.drop q = c :: cs)
    (hzero : c ≠ 0) (hspace : isSpace c = false) :
    ∃ t e, token inp q c = pure (t.code, e) ∧ rest inp q = t :: rest inp e ∧ q < e ∧
      e ≤ inp.length ∧ ∀ x, t = .word x → Spans inp ⟨q, e⟩ x := by
  have hlt : q < inp.length := by
    by_contra h
    rw [List.drop_eq_nil_of_le (by omega)] at hq
    cases hq
  have htail : inp.drop (q + 1) = cs := by rw [← List.tail_drop, hq, List.tail_cons]
  have hns : ¬isSpace c = true := by rw [hspace]; exact Bool.false_ne_true
  unfold rest
  obtain rfl | hgt := eq_or_ne c gt
  · have hne : ¬(gt = bar ∨ gt = lparen ∨ gt = rparen ∨ gt = semi ∨ gt = amp ∨ gt = lt) := by decide
    rw [token, if_neg hzero, if_neg hne, if_pos rfl, deref_eq hlt, htail, pure_bind, hq, tokens,
      if_neg hns, if_pos rfl]
    cases cs with
    | nil =>
      refine ⟨.gt, q + 1, if_neg (by decide), ?_, by omega, hlt, fun _ h => by cases h⟩
      rw [htail]
      exact if_neg (Option.some_ne_none _).symm
    | cons d ds =>
      by_cases hd : d = gt
      · have hds : inp.drop (q + 2) = ds := by
          rw [← List.tail_drop, htail, List.tail_cons]
        have hlen : q + 1 < inp.length := by
          by_contra h
          rw [List.drop_eq_nil_of_le (by omega)] at htail
          cases htail
        refine ⟨.append, q + 2, if_pos hd, ?_, by omega, hlen, fun _ h => by cases h⟩
        rw [hds]
        exact if_pos (congrArg some hd)
      · refine ⟨.gt, q + 1, if_neg hd, ?_, by omega, hlt, fun _ h => by cases h⟩
        rw [htail]
        exact if_neg (fun h => hd (Option.some.inj h))
  · cases hsym : symbol c with
    | some t =>
      have hone : c = bar ∨ c = lparen ∨ c = rparen ∨ c = semi ∨ c = amp ∨ c = lt := by
        by_contra h
        rw [symbol_none.mpr h] at hsym
        cases hsym
      refine ⟨t, q + 1, ?_, ?_, by omega, hlt, ?_⟩
      · rw [token, if_neg hzero, if_pos hone, (symbol_some hsym).1]
      · rw [hq, htail, tokens, if_neg hns, if_neg hgt, hsym]
      · rintro x rfl
        cases (symbol_some hsym).2
    | none =>
      have hword : isWord c = true := (isWord_iff hspace).mpr ⟨hgt, hsym⟩
      have hpast : past inp isWord q = q + (c :: cs.takeWhile isWord).length := by
        rw [past, hq, List.takeWhile_cons_of_pos hword]
      have hdrop : inp.drop (past inp isWord q) = cs.dropWhile isWord := by
        rw [drop_past, hq, List.dropWhile_cons_of_pos hword]
      refine ⟨.word (c :: cs.takeWhile isWord), past inp isWord q, ?_, ?_, ?_, past_le _ (Nat.le_of_lt hlt), ?_⟩
      · rw [token, if_neg hzero, if_neg (symbol_none.mp hsym), if_neg hgt, advance_eq _ rfl, pure_bind]
        rfl
      · rw [hdrop, hq, tokens, if_neg hns, if_neg hgt, hsym]
      · rw [hpast, List.length_cons]
        omega
      · rintro x ⟨rfl⟩
        refine ⟨?_, ⟨hpast, past_le _ (Nat.le_of_lt hlt)⟩, ⟨List.cons_ne_nil _ _, ?_⟩, head_past _ _⟩
        · rw [hq, hdrop, List.cons_append, List.takeWhile_append_dropWhile]
        · rw [← List.takeWhile_cons_of_pos hword]
          exact List.all_eq_true.mp List.all_takeWhile

theorem head_cases (hnul : 0 ∉ inp) (s : Nat) :
    (inp.drop (past inp isSpace s) = [] ∧ rest inp s = []) ∨
      ∃ c cs, inp.drop (past inp isSpace s) = c :: cs ∧ c ≠ 0 ∧ isSpace c = false := by
  cases hq : inp.drop (past inp isSpace s) with
  | nil =>
    refine .inl ⟨rfl, ?_⟩
    rw [← rest_past, rest, hq, tokens]
  | cons c cs =>
    have hmem : c ∈ inp := List.mem_of_mem_drop (hq ▸ List.mem_cons_self)
    refine .inr ⟨c, cs, rfl, ?_, ?_⟩
    · rintro rfl
      exact hnul hmem
    · exact head_past isSpace s c (by rw [hq]; rfl)

variable {E : Stop → Nat → Prop}

theorem advance_full (p : UInt8 → Bool) (s : Nat) :
    advance inp p (inp.length - s) s = pure (past inp p s) :=
  advance_eq p rfl

theorem gettoken_ensures {Q : UInt8 × Span → Nat → Prop} (hs : s ≤ inp.length)
    (h : Ensures (token inp (past inp isSpace s) ((inp.drop (past inp isSpace s)).head?.getD 0)) s
      (fun r _ => Q (r.1, ⟨past inp isSpace s, r.2⟩) (past inp isSpace r.2)) E) :
    Ensures (gettoken inp) s Q E := by
  unfold gettoken
  apply Ensures.bind_get
  rw [advance_full, pure_bind, deref_eq (past_le isSpace hs), pure_bind]
  refine Ensures.bind (h.post fun r _ hr => ?_)
  simp only [advance_full, pure_bind]
  exact Ensures.bind (.set (.pure hr))

theorem gettoken_nil (hnul : 0 ∉ inp) (hs : s ≤ inp.length) (h : rest inp s = []) :
    Ensures (gettoken inp) s (fun r t => r.1 = 0 ∧ rest inp t = [] ∧ s ≤ t ∧ t ≤ inp.length) E := by
  apply gettoken_ensures hs
  rcases head_cases hnul s with ⟨hq, -⟩ | ⟨c, cs, hq, hzero, hspace⟩
  · rw [hq]
    refine .pure ⟨rfl, ?_, Nat.le_trans (le_past _ _) (le_past _ _), past_le _ (past_le _ hs)⟩
    rw [rest_past, rest_past, h]
  · obtain ⟨t, e, -, hrest, -⟩ := token_cons hq hzero hspace
    rw [rest_past, h] at hrest
    cases hrest

theorem gettoken_cons (hnul : 0 ∉ inp) {tok : Tok} {ts : List Tok} (hs : s ≤ inp.length)
    (h : rest inp s = tok :: ts) :
    Ensures (gettoken inp) s
      (fun r t => r.1 = tok.code ∧ rest inp t = ts ∧ s < t ∧ t ≤ inp.length ∧
        ∀ x, tok = .word x → Spans inp r.2 x) E := by
  apply gettoken_ensures hs
  rcases head_cases hnul s with ⟨-, hnil⟩ | ⟨c, cs, hq, hzero, hspace⟩
  · rw [h] at hnil
    cases hnil
  · obtain ⟨t, e, htoken, hrest, hlt, hle, hspans⟩ := token_cons hq hzero hspace
    rw [rest_past, h] at hrest
    obtain ⟨rfl, rfl⟩ := List.cons.inj hrest
    have hs' : s ≤ past inp isSpace s := le_past _ _
    have he : e ≤ past inp isSpace e := le_past _ _
    rw [hq, List.head?_cons, Option.getD_some, htoken]
    exact .pure ⟨rfl, rest_past e, Nat.lt_of_le_of_lt hs' (Nat.lt_of_lt_of_le hlt he),
      past_le _ hle, hspans⟩

def starts (toks : List UInt8) : List Tok → Bool
  | [] => false
  | t :: _ => t.sign.any (toks.contains ·)

theorem sign_head {c : UInt8} (cs : List UInt8) (hspace : isSpace c = false) :
    ∃ t ts, tokens (c :: cs) = t :: ts ∧ t.sign = if isWord c then none else some c := by
  have hns : ¬isSpace c = true := by rw [hspace]; exact Bool.false_ne_true
  rw [tokens, if_neg hns]
  obtain rfl | hgt := eq_or_ne c gt
  · rw [if_pos rfl]
    by_cases h : cs.head? = some gt
    · rw [if_pos h]
      exact ⟨_, _, rfl, rfl⟩
    · rw [if_neg h]
      exact ⟨_, _, rfl, rfl⟩
  · rw [if_neg hgt]
    cases hsym : symbol c with
    | some t =>
      have hword : ¬isWord c = true := by
        rw [isWord_iff hspace, hsym]
        exact fun h => Option.some_ne_none t h.2
      rw [if_neg hword]
      exact ⟨t, _, rfl, (symbol_some hsym).2⟩
    | none =>
      rw [if_pos ((isWord_iff hspace).mpr ⟨hgt, hsym⟩)]
      exact ⟨_, _, rfl, rfl⟩

theorem starts_tokens {c : UInt8} (hspace : isSpace c = false)
    (htoks : toks ⊆ symbols) : starts toks (tokens (c :: cs)) = toks.contains c := by
  obtain ⟨t, ts, ht, hsign⟩ := sign_head cs hspace
  rw [ht, starts, hsign]
  by_cases hword : isWord c = true
  · have hc : c ∉ toks := fun h => (of_decide_eq_true hword).2 (htoks h)
    rw [if_pos hword, Option.any_none, eq_comm, List.contains_eq_mem, decide_eq_false hc]
  · rw [if_neg hword, Option.any_some]

theorem peek_ensures (hnul : 0 ∉ inp) (hs : s ≤ inp.length) (htoks : toks ⊆ symbols) :
    Ensures (peek inp toks) s
      (fun r t => r = starts toks (rest inp s) ∧ rest inp t = rest inp s ∧ s ≤ t ∧ t ≤ inp.length)
      E := by
  unfold peek
  apply Ensures.bind_get
  rw [advance_full, pure_bind]
  apply Ensures.bind_set
  rw [deref_eq (past_le isSpace hs), pure_bind]
  refine .pure ⟨?_, rest_past s, le_past _ _, past_le _ hs⟩
  rcases head_cases hnul s with ⟨hq, hnil⟩ | ⟨c, cs, hq, hzero, hspace⟩
  · rw [hq, hnil]
    exact decide_eq_false (fun h => h.1 rfl)
  · rw [← rest_past, rest, hq, starts_tokens hspace htoks, List.contains_eq_mem, List.head?_cons,
      Option.getD_some]
    exact decide_eq_decide.mpr (and_iff_right hzero)

theorem peek_end (hnul : 0 ∉ inp) (hs : s ≤ inp.length) (h : rest inp s = [])
    (toks : List UInt8) : Ensures (peek inp toks) s (fun _ t => t = inp.length) E := by
  have hlen : past inp isSpace s = inp.length := by
    rcases head_cases hnul s with ⟨hq, -⟩ | ⟨c, cs, hq, hzero, hspace⟩
    · exact Nat.le_antisymm (past_le _ hs) (List.drop_eq_nil_iff.mp hq)
    · obtain ⟨t, e, -, hrest, -⟩ := token_cons hq hzero hspace
      rw [rest_past, h] at hrest
      cases hrest
  unfold peek
  apply Ensures.bind_get
  rw [advance_full, pure_bind]
  apply Ensures.bind_set
  rw [deref_eq (past_le isSpace hs), pure_bind]
  exact .pure hlen

variable {α : Type} {m m' : P α} {Q : α → Nat → Prop}

theorem peek_yes (hnul : 0 ∉ inp) (hs : s ≤ inp.length)
    (htoks : toks ⊆ symbols) (hyes : starts toks (rest inp s) = true)
    (h : ∀ t, s ≤ t → t ≤ inp.length → rest inp t = rest inp s → Ensures m t Q E) :
    Ensures (peek inp toks >>= fun b => if b = true then m else m') s Q E := by
  refine (peek_ensures hnul hs htoks).seq ?_
  rintro b t ⟨rfl, hrest, hle, ht⟩
  rw [if_pos hyes]
  exact h t hle ht hrest

theorem peek_no (hnul : 0 ∉ inp) (hs : s ≤ inp.length)
    (htoks : toks ⊆ symbols) (hno : starts toks (rest inp s) = false)
    (h : ∀ t, s ≤ t → t ≤ inp.length → rest inp t = rest inp s → Ensures m' t Q E) :
    Ensures (peek inp toks >>= fun b => if b = true then m else m') s Q E := by
  refine (peek_ensures hnul hs htoks).seq ?_
  rintro b t ⟨rfl, hrest, hle, ht⟩
  rw [hno, if_neg Bool.false_ne_true]
  exact h t hle ht hrest

end Cursor

end Xv6.Shell
