import Xv6.ShellParser

namespace Xv6.Shell

open Lib Function

/-- The symbols that can come after a phrase. -/
def Phrase.follow : Phrase → List UInt8
  | .line => [rparen]
  | .pipe => [rparen, amp, semi]
  | .exec => [bar, rparen, amp, semi]

def Follows (g : Phrase) (ts : List Tok) : Prop := ts = [] ∨ starts g.follow ts = true

variable {toks toks' : List UInt8} {ts us : List Tok}

theorem starts_cons {t : Tok} :
    starts toks (t :: ts) = true ↔ ∃ c ∈ toks, t.sign = some c := by
  rw [starts]
  cases t.sign with
  | none => simp
  | some c => simp [eq_comm]

theorem starts_mono (h : toks ⊆ toks') (hts : starts toks ts = true) : starts toks' ts = true := by
  cases ts with
  | nil => cases hts
  | cons t ts =>
    obtain ⟨c, hc, hsign⟩ := starts_cons.mp hts
    exact starts_cons.mpr ⟨c, h hc, hsign⟩

theorem starts_disjoint (h : ∀ c ∈ toks, c ∉ toks')
    (hts : starts toks ts = true) : starts toks' ts = false := by
  cases ts with
  | nil => rfl
  | cons t ts =>
    obtain ⟨c, hc, hsign⟩ := starts_cons.mp hts
    rw [← Bool.not_eq_true, starts_cons]
    rintro ⟨d, hd, hsign'⟩
    rw [hsign] at hsign'
    cases hsign'
    exact h c hc hd

namespace Follows

variable {ts : List Tok}

theorem mono {g g' : Phrase} (h : Follows g ts) (hsub : g.follow ⊆ g'.follow) :
    Follows g' ts :=
  h.imp_right (starts_mono hsub)

theorem not_starts {g : Phrase} {toks : List UInt8} (h : Follows g ts)
    (hdis : g.follow.all (· ∉ toks) = true) : starts toks ts = false := by
  rcases h with rfl | h
  · rfl
  · refine starts_disjoint (fun c hc => ?_) h
    exact of_decide_eq_true (List.all_eq_true.mp hdis c hc)

theorem amps {k : Nat} (h : Follows .pipe ts) :
    Follows .pipe (List.replicate k .amp ++ ts) := by
  cases k with
  | zero => exact h
  | succ k => exact .inr rfl

end Follows

theorem Args.starts_append {ws : List Word} {rs : List Redirection}
    (h : Args ts ws rs) (hus : starts toks us = false) :
    starts toks (ts ++ us) = false := by
  cases h with
  | nil => exact hus
  | cons _ _ => rfl

theorem Redirs.starts_append {rs : List Redirection} (h : Redirs ts rs)
    (hus : starts [lparen] us = false) : starts [lparen] (ts ++ us) = false := by
  cases h with
  | nil => exact hus
  | @cons t w r ts rs hr _ => cases t <;> first | rfl | cases hr

theorem Tok.starts_of_redirection {t : Tok} {w : Word} {r : Redirection}
    (h : t.redirection w = some r) : starts [Shell.lt, Shell.gt] (t :: ts) = true := by
  cases t <;> first | rfl | cases h

section Complete

variable {inp : List UInt8} (hnul : 0 ∉ inp) {ts us : List Tok} {rs rs' : List Redirection} {n s : Nat}
  {tree : Cmd Span} {c l r : Cmd Word} {ws : List Word}

def Leaves (inp : List UInt8) (us : List Tok) (s : Nat) (c : Cmd Word) (tree : Cmd Span) (t : Nat) :
    Prop :=
  s ≤ t ∧ t ≤ inp.length ∧ rest inp t = us ∧ Reads inp tree c

def Phrase.parse (inp : List UInt8) : Phrase → Nat → P (Cmd Span)
  | .line => parseline inp
  | .pipe => parsepipe inp
  | .exec => parseexec inp

/-- The nested calls that are needed at the last token. -/
def Phrase.calls : Phrase → Nat
  | .line => 4
  | .pipe => 3
  | .exec => 2

/-- The function for the phrase `g` reads the tokens `ts` as the command `c`. -/
def CompleteAt (inp : List UInt8) (g : Phrase) (ts : List Tok) (c : Cmd Word) : Prop :=
  ∀ us d s, Follows g us → s ≤ inp.length → 4 * (inp.length - s) + g.calls ≤ d →
    rest inp s = ts ++ us → Ensures (g.parse inp d) s (Leaves inp us s c) (fun _ _ => False)

include hnul

theorem redirsLoop_complete (h : Redirs ts rs) (hus : starts [lt, gt] us = false) (hs : s ≤ inp.length)
    (hn : inp.length < s + n) (htree : Reads inp tree c) (hrest : rest inp s = ts ++ us) :
    Completes (redirsLoop inp n tree) s (Leaves inp us s (c.redirs rs)) := by
  induction h generalizing n s tree c with
  | nil =>
    cases n with
    | zero => omega
    | succ n =>
      unfold redirsLoop
      apply peek_no hnul hs (by simp [symbols]) (by rw [hrest]; exact hus)
      intro s₁ hle₁ hs₁ hrest₁
      exact .pure ⟨hle₁, hs₁, hrest₁.trans hrest, htree⟩
  | @cons op w r ts rs hr hrs ih =>
    cases n with
    | zero => omega
    | succ n =>
      unfold redirsLoop
      apply peek_yes hnul hs (by simp [symbols]) (by rw [hrest]; exact Tok.starts_of_redirection hr)
      intro s₁ hle₁ hs₁ hrest₁
      refine (gettoken_cons hnul hs₁ (hrest₁.trans hrest)).seq ?_
      rintro ⟨code, w₁⟩ s₂ ⟨rfl, hrest₂, hlt₂, hs₂, -⟩
      refine (gettoken_cons hnul hs₂ hrest₂).seq ?_
      rintro ⟨code, file⟩ s₃ ⟨rfl, hrest₃, hlt₃, hs₃, hfile⟩
      have hword : ¬(Tok.word w).code ≠ letterA := not_not.mpr rfl
      have hn₃ : inp.length < s₃ + n := by omega
      simp only [if_neg hword]
      refine (ih hs₃ hn₃ (htree.redirect (hfile w rfl) hr) hrest₃).post ?_
      rintro tree' t ⟨hle, ht⟩
      exact ⟨by omega, ht⟩

theorem parseredirs_complete (h : Redirs ts rs) (hus : starts [lt, gt] us = false) (hs : s ≤ inp.length)
    (htree : Reads inp tree c) (hrest : rest inp s = ts ++ us) :
    Completes (parseredirs inp tree) s (Leaves inp us s (c.redirs rs)) :=
  redirsLoop_complete hnul h hus hs (by omega) htree hrest

theorem argsLoop_complete {ws' : List Word} (h : Args ts ws' rs') (hus : Follows .exec us)
    (hs : s ≤ inp.length) (hn : inp.length < s + n) (hmax : ws.length + ws'.length < maxargs)
    (htree : Reads inp tree ((Cmd.exec ws).redirs rs)) (hrest : rest inp s = ts ++ us) :
    Completes (argsLoop inp n ws.length tree) s
      (Leaves inp us s ((Cmd.exec (ws ++ ws')).redirs (rs ++ rs'))) := by
  induction h generalizing n s tree ws rs with
  | nil =>
    rw [List.append_nil, List.append_nil]
    cases n with
    | zero => omega
    | succ n =>
      unfold argsLoop
      rcases hus with rfl | hus
      · apply peek_no hnul hs (by simp [symbols]) (by rw [hrest]; rfl)
        intro s₁ hle₁ hs₁ hrest₁
        refine (gettoken_nil hnul hs₁ (hrest₁.trans hrest)).seq ?_
        rintro ⟨code, w⟩ s₂ ⟨rfl, hrest₂, hle₂, hs₂⟩
        exact .pure ⟨by omega, hs₂, hrest₂, htree⟩
      · apply peek_yes hnul hs (by simp [symbols]) (by rw [hrest]; exact hus)
        intro s₁ hle₁ hs₁ hrest₁
        exact .pure ⟨hle₁, hs₁, hrest₁.trans hrest, htree⟩
  | @cons x ts₁ ts₂ ws₂ rs₁ rs₂ hredirs hargs ih =>
    cases n with
    | zero => omega
    | succ n =>
      rw [List.length_cons] at hmax
      rw [List.cons_append, List.append_assoc] at hrest
      unfold argsLoop
      apply peek_no hnul hs (by simp [symbols]) (by rw [hrest]; rfl)
      intro s₁ hle₁ hs₁ hrest₁
      refine (gettoken_cons hnul hs₁ (hrest₁.trans hrest)).seq ?_
      rintro ⟨code, w⟩ s₂ ⟨rfl, hrest₂, hlt₂, hs₂, hw⟩
      have hlen : (ws ++ [x]).length = ws.length + 1 := List.length_append
      have hnot : starts [lt, gt] (ts₂ ++ us) = false :=
        hargs.starts_append (hus.not_starts rfl)
      have hword : ¬(Tok.word x).code ≠ letterA := not_not.mpr rfl
      simp only [if_neg (Tok.code_ne_zero (.word x))]
      rw [if_neg hword, if_neg (by omega)]
      refine (parseredirs_complete hnul hredirs hnot hs₂ (htree.addArg (hw x rfl)) hrest₂).seq ?_
      rintro tree₁ s₃ ⟨hle₃, hs₃, hrest₃, htree₁⟩
      have hn₃ : inp.length < s₃ + n := by omega
      rw [← redirs_append] at htree₁
      rw [← hlen, List.append_cons ws x ws₂, ← List.append_assoc]
      refine (ih hs₃ hn₃ (by omega) htree₁ hrest₃).post ?_
      rintro tree' t ⟨hle, ht⟩
      exact ⟨by omega, ht⟩

theorem parsesimple_complete {vs : List Tok}
    (hrs : Redirs ts rs) (hargs : Args us ws rs') (hmax : ws.length < maxargs)
    (hvs : Follows .exec vs) (hs : s ≤ inp.length) (hrest : rest inp s = ts ++ (us ++ vs)) :
    Completes (parsesimple inp) s (Leaves inp vs s ((Cmd.exec ws).redirs (rs ++ rs'))) := by
  unfold parsesimple
  have hnil : Reads inp (.exec []) (.exec []) := .exec .nil
  have hnot : starts [lt, gt] (us ++ vs) = false := hargs.starts_append (hvs.not_starts rfl)
  refine (parseredirs_complete hnul hrs hnot hs hnil hrest).seq ?_
  rintro tree s₁ ⟨hle₁, hs₁, hrest₁, htree⟩
  have hmax' : ([] : List Word).length + ws.length < maxargs := by rwa [List.length_nil, Nat.zero_add]
  refine (argsLoop_complete hnul hargs hvs hs₁ (by omega) hmax' htree hrest₁).post ?_
  rintro tree' t ⟨hle, ht⟩
  exact ⟨by omega, ht⟩

theorem backLoop_complete {k : Nat} (hus : starts [amp] us = false) (hs : s ≤ inp.length) (hn : inp.length < s + n)
    (htree : Reads inp tree c) (hrest : rest inp s = List.replicate k .amp ++ us) :
    Completes (backLoop inp n tree) s (Leaves inp us s (Cmd.back^[k] c)) := by
  induction k generalizing n s tree c with
  | zero =>
    cases n with
    | zero => omega
    | succ n =>
      unfold backLoop
      apply peek_no hnul hs (by simp [symbols]) (by rw [hrest]; exact hus)
      intro s₁ hle₁ hs₁ hrest₁
      exact .pure ⟨hle₁, hs₁, hrest₁.trans hrest, htree⟩
  | succ k ih =>
    cases n with
    | zero => omega
    | succ n =>
      unfold backLoop
      apply take_yes (t := .amp) hnul rfl hs hrest
      intro s₂ hrest₂ hlt₂ hs₂
      have hn₂ : inp.length < s₂ + n := by omega
      refine (ih hs₂ hn₂ htree.back hrest₂).post ?_
      rintro tree' t ⟨hle, ht⟩
      exact ⟨by omega, ht⟩

theorem line_complete (k : Nat) (ih : CompleteAt inp .pipe ts c) :
    CompleteAt inp .line (ts ++ List.replicate k .amp) (Cmd.back^[k] c) := by
  intro us d s hus hs hd hrest
  cases d with
  | zero => exact absurd hd (by simp [Phrase.calls])
  | succ d =>
    have hd' : 4 * (inp.length - s) + 3 ≤ d := Nat.le_of_succ_le_succ hd
    have hpipe : Follows .pipe us := hus.mono (by decide)
    rw [Phrase.parse, parseline]
    rw [List.append_assoc] at hrest
    refine (ih _ _ _ hpipe.amps hs hd' hrest).seq ?_
    rintro tree₁ s₁ ⟨hle₁, hs₁, hrest₁, htree₁⟩
    have hamp : starts [amp] us = false := hus.not_starts rfl
    refine (backLoop_complete hnul hamp hs₁ (by omega) htree₁ hrest₁).seq ?_
    rintro tree₂ s₂ ⟨hle₂, hs₂, hrest₂, htree₂⟩
    apply peek_no hnul hs₂ (by simp [symbols]) (by rw [hrest₂]; exact hus.not_starts rfl)
    intro t hle ht hrest'
    exact .pure ⟨by omega, ht, hrest'.trans hrest₂, htree₂⟩

theorem list_complete (k : Nat) (ihl : CompleteAt inp .pipe ts l) (ihr : CompleteAt inp .line us r) :
    CompleteAt inp .line (ts ++ (List.replicate k .amp ++ .semi :: us)) (.list (Cmd.back^[k] l) r) := by
  intro vs d s hvs hs hd hrest
  cases d with
  | zero => exact absurd hd (by simp [Phrase.calls])
  | succ d =>
    have hd' : 4 * (inp.length - s) + 3 ≤ d := Nat.le_of_succ_le_succ hd
    have hpipe : Follows .pipe (.semi :: (us ++ vs)) := .inr rfl
    rw [Phrase.parse, parseline]
    rw [List.append_assoc, List.append_assoc, List.cons_append] at hrest
    refine (ihl _ _ _ hpipe.amps hs hd' hrest).seq ?_
    rintro tree₁ s₁ ⟨hle₁, hs₁, hrest₁, htree₁⟩
    refine (backLoop_complete hnul rfl hs₁ (by omega) htree₁ hrest₁).seq ?_
    rintro tree₂ s₂ ⟨hle₂, hs₂, hrest₂, htree₂⟩
    apply take_yes (t := .semi) hnul rfl hs₂ hrest₂
    intro s₄ hrest₄ hlt₄ hs₄
    have hd₄ : 4 * (inp.length - s₄) + 4 ≤ d := by omega
    refine (ihr _ _ _ hvs hs₄ hd₄ hrest₄).seq ?_
    rintro right t ⟨hle, ht, hrest', hright⟩
    exact .pure ⟨by omega, ht, hrest', htree₂.list hright⟩

theorem single_complete (ih : CompleteAt inp .exec ts c) :
    CompleteAt inp .pipe ts c := by
  intro us d s hus hs hd hrest
  cases d with
  | zero => exact absurd hd (by simp [Phrase.calls])
  | succ d =>
    have hd' : 4 * (inp.length - s) + 2 ≤ d := Nat.le_of_succ_le_succ hd
    rw [Phrase.parse, parsepipe]
    refine (ih _ _ _ (hus.mono (by decide)) hs hd' hrest).seq ?_
    rintro tree₁ s₁ ⟨hle₁, hs₁, hrest₁, htree₁⟩
    apply peek_no hnul hs₁ (by simp [symbols]) (by rw [hrest₁]; exact hus.not_starts rfl)
    intro t hle ht hrest'
    exact .pure ⟨by omega, ht, hrest'.trans hrest₁, htree₁⟩

theorem pipe_complete (ihl : CompleteAt inp .exec ts l)
    (ihr : CompleteAt inp .pipe us r) : CompleteAt inp .pipe (ts ++ .bar :: us) (.pipe l r) := by
  intro vs d s hvs hs hd hrest
  cases d with
  | zero => exact absurd hd (by simp [Phrase.calls])
  | succ d =>
    have hd' : 4 * (inp.length - s) + 2 ≤ d := Nat.le_of_succ_le_succ hd
    have hexec : Follows .exec (.bar :: (us ++ vs)) := .inr rfl
    rw [Phrase.parse, parsepipe]
    rw [List.append_assoc, List.cons_append] at hrest
    refine (ihl _ _ _ hexec hs hd' hrest).seq ?_
    rintro tree₁ s₁ ⟨hle₁, hs₁, hrest₁, htree₁⟩
    apply take_yes (t := .bar) hnul rfl hs₁ hrest₁
    intro s₃ hrest₃ hlt₃ hs₃
    have hd₃ : 4 * (inp.length - s₃) + 3 ≤ d := by omega
    refine (ihr _ _ _ hvs hs₃ hd₃ hrest₃).seq ?_
    rintro right t ⟨hle, ht, hrest', hright⟩
    exact .pure ⟨by omega, ht, hrest', htree₁.pipe hright⟩

theorem block_complete (ih : CompleteAt inp .line ts c) (hrs : Redirs us rs) :
    CompleteAt inp .exec (.lparen :: (ts ++ .rparen :: us)) (c.redirs rs) := by
  intro vs d s hvs hs hd hrest
  match d with
  | 0 => exact absurd hd (by simp [Phrase.calls])
  | 1 => exact absurd hd (by simp [Phrase.calls])
  | d + 2 =>
    have hd' : 4 * (inp.length - s) ≤ d := Nat.le_of_add_le_add_right hd
    have hline : Follows .line (.rparen :: (us ++ vs)) := .inr rfl
    rw [Phrase.parse, parseexec]
    rw [List.cons_append, List.append_assoc, List.cons_append] at hrest
    apply peek_yes hnul hs (by simp [symbols]) (by rw [hrest]; rfl)
    intro s₁ hle₁ hs₁ hrest₁
    unfold parseblock
    apply take_yes (t := .lparen) hnul rfl hs₁ (hrest₁.trans hrest)
    intro s₃ hrest₃ hlt₃ hs₃
    have hd₃ : 4 * (inp.length - s₃) + 4 ≤ d := by omega
    refine (ih _ _ _ hline hs₃ hd₃ hrest₃).seq ?_
    rintro tree s₄ ⟨hle₄, hs₄, hrest₄, htree⟩
    apply take_yes (t := .rparen) hnul rfl hs₄ hrest₄
    intro s₆ hrest₆ hlt₆ hs₆
    refine (parseredirs_complete hnul hrs (hvs.not_starts rfl) hs₆ htree hrest₆).post ?_
    rintro tree' t ⟨hle, ht⟩
    exact ⟨by omega, ht⟩

theorem simple_complete (hrs : Redirs ts rs) (hargs : Args us ws rs') (hmax : ws.length < maxargs) :
    CompleteAt inp .exec (ts ++ us) ((Cmd.exec ws).redirs (rs ++ rs')) := by
  intro vs d s hvs hs hd hrest
  cases d with
  | zero => exact absurd hd (by simp [Phrase.calls])
  | succ d =>
    have hno : starts [lparen] (ts ++ (us ++ vs)) = false :=
      hrs.starts_append (hargs.starts_append (hvs.not_starts rfl))
    rw [Phrase.parse, parseexec]
    rw [List.append_assoc] at hrest
    apply peek_no hnul hs (by simp [symbols]) (by rw [hrest]; exact hno)
    intro s₁ hle₁ hs₁ hrest₁
    refine (parsesimple_complete hnul hrs hargs hmax hvs hs₁ (hrest₁.trans hrest)).post ?_
    rintro tree' t ⟨hle, ht⟩
    exact ⟨by omega, ht⟩

theorem parse_complete {g : Phrase} (h : Derives g ts c) :
    CompleteAt inp g ts c := by
  induction h with
  | line k _ ih => exact line_complete hnul k ih
  | list k _ _ ihl ihr => exact list_complete hnul k ihl ihr
  | single _ ih => exact single_complete hnul ih
  | pipe _ _ ihl ihr => exact pipe_complete hnul ihl ihr
  | block _ hrs ih => exact block_complete hnul ih hrs
  | simple hrs hargs hmax => exact simple_complete hnul hrs hargs hmax

theorem parseall_complete (h : Derives .line (tokens inp) c) :
    Completes (parseall inp) 0 (fun tree _ => Reads inp tree c) := by
  unfold parseall
  have hrest : rest inp 0 = tokens inp ++ [] := by rw [rest, List.drop_zero, List.append_nil]
  refine (parse_complete hnul h [] (depth inp) 0 (.inl rfl) (Nat.zero_le _)
    (Nat.le_refl _) hrest).seq ?_
  rintro tree s ⟨-, hs, hnil, htree⟩
  refine (peek_end hnul hs hnil []).seq ?_
  rintro r t rfl
  apply Ensures.bind_get
  rw [if_neg (not_not.mpr rfl)]
  exact .pure htree

end Complete

def cstring (mem : Nat → UInt8) : Nat → Nat → Word
  | 0, _ => []
  | n + 1, q => if mem q = 0 then [] else mem q :: cstring mem n (q + 1)

def Cmd.map {α β : Type} (f : α → β) : Cmd α → Cmd β
  | .exec argv => .exec (argv.map f)
  | .redir cmd file mode fd => .redir (cmd.map f) (f file) mode fd
  | .pipe left right => .pipe (left.map f) (right.map f)
  | .list left right => .list (left.map f) (right.map f)
  | .back cmd => .back (cmd.map f)

/-- `parsecmd` returns a tree whose strings are those of `c`. -/
def ParsesTo (inp : List UInt8) (c : Cmd Word) : Prop :=
  ∃ tree mem, parsecmd inp = .ok (tree, mem) ∧
    tree.map (fun w => cstring mem (inp.length + 1) w.q) = c

/-- Where `nulterminate` writes. -/
def Cmd.ends : Cmd Span → List Nat
  | .exec argv => argv.map Span.eq
  | .redir cmd file _ _ => file.eq :: cmd.ends
  | .pipe left right => left.ends ++ right.ends
  | .list left right => left.ends ++ right.ends
  | .back cmd => cmd.ends

theorem foldl_update (argv : List Span) (mem : Nat → UInt8) (k : Nat) :
    argv.foldl (fun mem w => update mem w.eq 0) mem k =
      if k ∈ argv.map Span.eq then 0 else mem k := by
  induction argv generalizing mem with
  | nil => rfl
  | cons w argv ih =>
    rw [List.foldl_cons, ih, List.map_cons]
    by_cases hk : k = w.eq
    · subst hk
      simp
    · simp [hk]

theorem nulterminate_apply (tree : Cmd Span) (mem : Nat → UInt8) (k : Nat) :
    nulterminate tree mem k = if k ∈ tree.ends then 0 else mem k := by
  induction tree generalizing mem with
  | exec argv => exact foldl_update argv mem k
  | redir cmd file mode fd ih =>
    by_cases hk : k = file.eq
    · subst hk
      simp [nulterminate, Cmd.ends]
    · simp [nulterminate, Cmd.ends, ih, hk]
  | pipe left right ihl ihr | list left right ihl ihr =>
    simp only [nulterminate, Cmd.ends, ihr, ihl, List.mem_append]
    grind
  | back cmd ih => exact ih mem

section Strings

variable {inp : List UInt8} {tree : Cmd Span} {c : Cmd Word}

def IsEnd (inp : List UInt8) (e : Nat) : Prop := ∀ c ∈ (inp.drop e).head?, isWord c = false

theorem Reads.isEnd (h : Reads inp tree c) :
    ∀ e ∈ tree.ends, IsEnd inp e := by
  induction h with
  | @exec argv ws hargs =>
    induction hargs with
    | nil => nofun
    | cons hw _ ih => exact List.forall_mem_cons.mpr ⟨hw.stop, ih⟩
  | redir _ hfile ih => exact List.forall_mem_cons.mpr ⟨hfile.stop, ih⟩
  | pipe _ _ ihl ihr | list _ _ ihl ihr => exact List.forall_mem_append.mpr ⟨ihl, ihr⟩
  | back _ ih => exact ih

variable {ends : List Nat} {mem : Nat → UInt8}

theorem cstring_eq (hnul : 0 ∉ inp) (hends : ∀ e ∈ ends, IsEnd inp e)
    (hmem : ∀ k, mem k = if k ∈ ends then 0 else inp.getD k 0) {x : Word} {q n : Nat}
    (htext : inp.drop q = x ++ inp.drop (q + x.length)) (hchars : ∀ c ∈ x, isWord c = true)
    (hend : q + x.length ∈ ends) (hn : x.length < n) : cstring mem n q = x := by
  induction x generalizing q n with
  | nil =>
    cases n with
    | zero => cases hn
    | succ n =>
      have hq : mem q = 0 := (hmem q).trans (if_pos hend)
      rw [cstring, if_pos hq]
  | cons c x ih =>
    cases n with
    | zero => cases hn
    | succ n =>
      have hhead : (inp.drop q).head? = some c := by rw [htext]; rfl
      have hq : q ∉ ends := by
        intro hq
        have := hends q hq c hhead
        rw [hchars c List.mem_cons_self] at this
        cases this
      have hc : mem q = c := by
        rw [hmem, if_neg hq, List.getD_eq_getElem?_getD, ← List.head?_drop, hhead, Option.getD_some]
      have hzero : c ≠ 0 := by
        rintro rfl
        exact hnul (List.mem_of_mem_drop (List.mem_of_mem_head? hhead))
      have hlen : q + 1 + x.length = q + (c :: x).length := by rw [List.length_cons]; omega
      rw [cstring, hc, if_neg hzero, ih ?_ (fun d hd => hchars d (List.mem_cons_of_mem c hd)) ?_ ?_]
      · rw [hlen, ← List.tail_drop, htext]
        rfl
      · rwa [hlen]
      · exact Nat.lt_of_succ_lt_succ hn

theorem Spans.cstring_eq (hnul : 0 ∉ inp) (hends : ∀ e ∈ ends, IsEnd inp e)
    (hmem : ∀ k, mem k = if k ∈ ends then 0 else inp.getD k 0) {w : Span} {x : Word}
    (h : Spans inp w x) (hw : w.eq ∈ ends) : cstring mem (inp.length + 1) w.q = x := by
  obtain ⟨heq, hle⟩ := h.bound
  refine Shell.cstring_eq hnul hends hmem ?_ h.chars.2 (heq ▸ hw) (by omega)
  rw [← heq]
  exact h.text

theorem Reads.map_cstring (hnul : 0 ∉ inp) (hends : ∀ e ∈ ends, IsEnd inp e)
    (hmem : ∀ k, mem k = if k ∈ ends then 0 else inp.getD k 0)
    (h : Reads inp tree c) (hsub : tree.ends ⊆ ends) :
    tree.map (fun w => cstring mem (inp.length + 1) w.q) = c := by
  induction h with
  | @exec argv ws hargs =>
    refine congrArg Cmd.exec ?_
    induction hargs with
    | nil => rfl
    | cons hw _ ih =>
      rw [Cmd.ends, List.map_cons, List.cons_subset] at hsub
      rw [List.map_cons, hw.cstring_eq hnul hends hmem hsub.1, ih hsub.2]
  | redir _ hfile ih =>
    rw [Cmd.ends, List.cons_subset] at hsub
    rw [Cmd.map, ih hsub.2, hfile.cstring_eq hnul hends hmem hsub.1]
  | pipe _ _ ihl ihr | list _ _ ihl ihr =>
    rw [Cmd.ends, List.append_subset] at hsub
    rw [Cmd.map, ihl hsub.1, ihr hsub.2]
  | back _ ih => rw [Cmd.map, ih hsub]

theorem parsecmd_ok {mem : Nat → UInt8} :
    parsecmd inp = .ok (tree, mem) ↔
      (∃ t, parseall inp 0 = .ok tree t) ∧ mem = nulterminate tree fun k => inp.getD k 0 := by
  unfold parsecmd
  cases parseall inp 0 with
  | ok a t =>
    constructor
    · intro h
      cases h
      exact ⟨⟨t, rfl⟩, rfl⟩
    · rintro ⟨⟨u, hu⟩, rfl⟩
      cases hu
      rfl
  | error e t =>
    constructor
    · intro h
      cases h
    · rintro ⟨⟨u, hu⟩, -⟩
      cases hu

theorem returns_of_reads (hnul : 0 ∉ inp) {t : Nat}
    (hok : parseall inp 0 = .ok tree t) (h : Reads inp tree c) : ParsesTo inp c :=
  ⟨tree, _, parsecmd_ok.mpr ⟨⟨t, hok⟩, rfl⟩,
    h.map_cstring hnul h.isEnd (nulterminate_apply tree _) (List.Subset.refl _)⟩

end Strings

/-- For every string, `parsecmd` returns or rejects without a read past the end, and it returns
exactly what the grammar derives. -/
theorem parser_accepts_grammar (inp : List UInt8) (hnul : 0 ∉ inp) :
    (∀ e, parsecmd inp = .error e → Rejects e) ∧
      ∀ c, ParsesTo inp c ↔ Derives .line (tokens inp) c := by
  refine ⟨?_, fun c => ⟨?_, ?_⟩⟩
  · intro e he
    unfold parsecmd at he
    cases hm : parseall inp 0 with
    | ok tree t =>
      rw [hm] at he
      cases he
    | error e' t =>
      rw [hm] at he
      cases he
      exact (parseall_sound hnul).error hm
  · rintro ⟨tree, mem, hok, hc⟩
    obtain ⟨⟨t, hm⟩, rfl⟩ := parsecmd_ok.mp hok
    obtain ⟨c', hderives, hreads⟩ := (parseall_sound hnul).ok hm
    have hc' := hreads.map_cstring hnul hreads.isEnd (nulterminate_apply tree _) (List.Subset.refl _)
    rwa [← hc, hc']
  · intro hderives
    cases hm : parseall inp 0 with
    | ok tree t => exact returns_of_reads hnul hm ((parseall_complete hnul hderives).ok hm)
    | error e t => exact ((parseall_complete hnul hderives).error hm).elim

/-- `ls>a` -/
theorem parser_accepts_grammar_ls :
    (0 : UInt8) ∉ [108, 115, 62, 97] ∧
      (∀ e, parsecmd [108, 115, 62, 97] = .error e → Rejects e) ∧
      ∀ c, ParsesTo [108, 115, 62, 97] c ↔ Derives .line (tokens [108, 115, 62, 97]) c :=
  ⟨by simp, parser_accepts_grammar [108, 115, 62, 97] (by simp)⟩

end Xv6.Shell
