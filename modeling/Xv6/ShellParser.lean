import Xv6.ShellLexer
import Mathlib.Data.List.Forall2
import Mathlib.Data.List.Induction

namespace Xv6.Shell

open Lib

def Rejects : Stop → Prop
  | .panic _ => True
  | .leftovers _ => True
  | .overrun => False
  | .fuel => False

/-- The tree over the string `inp` stands for a command. -/
inductive Reads (inp : List UInt8) : Cmd Span → Cmd Word → Prop
  | exec {argv : List Span} {ws : List Word} :
      List.Forall₂ (Spans inp) argv ws → Reads inp (.exec argv) (.exec ws)
  | redir {tree : Cmd Span} {c : Cmd Word} {file : Span} {x : Word} {mode fd : Nat} :
      Reads inp tree c → Spans inp file x → Reads inp (.redir tree file mode fd) (.redir c x mode fd)
  | pipe {left right : Cmd Span} {l r : Cmd Word} :
      Reads inp left l → Reads inp right r → Reads inp (.pipe left right) (.pipe l r)
  | list {left right : Cmd Span} {l r : Cmd Word} :
      Reads inp left l → Reads inp right r → Reads inp (.list left right) (.list l r)
  | back {tree : Cmd Span} {c : Cmd Word} : Reads inp tree c → Reads inp (.back tree) (.back c)

def Tok.single : Tok → Bool
  | .word _ | .gt | .append => false
  | _ => true

theorem starts_single {t : Tok} (ht : t.single = true) {ts : List Tok}
    (h : starts [t.code] ts = true) : ∃ us, ts = t :: us := by
  cases ts with
  | nil => cases h
  | cons u us => cases t <;> cases ht <;> cases u <;> first | exact ⟨us, rfl⟩ | cases h

theorem starts_redirection {ts : List Tok} (h : starts [lt, gt] ts = true) :
    ∃ t us, ts = t :: us ∧ t.sign ≠ none ∧ ∀ w, ∃ r, t.redirection w = some r := by
  cases ts with
  | nil => cases h
  | cons u us =>
    cases u <;> first | exact ⟨_, us, rfl, nofun, fun w => ⟨_, rfl⟩⟩ | cases h

theorem Tok.code_eq_letterA {t : Tok} (h : t.code = letterA) : ∃ w, t = .word w := by
  cases t <;> first | exact ⟨_, rfl⟩ | cases h

theorem Tok.code_ne_zero (t : Tok) : t.code ≠ 0 := by
  cases t with
  | word w => exact (by decide : letterA ≠ 0)
  | _ => decide

theorem redirs_append (c : Cmd Word) (rs rs' : List Redirection) :
    c.redirs (rs ++ rs') = (c.redirs rs).redirs rs' :=
  List.foldl_append

section Parser

variable {inp : List UInt8}

theorem Reads.redirect {tree : Cmd Span} {c : Cmd Word} {file : Span} {x : Word} {t : Tok} {r : Redirection}
    (h : Reads inp tree c) (hfile : Spans inp file x) (hr : t.redirection x = some r) :
    Reads inp (redirect t.code tree file) (c.redirs [r]) := by
  cases t <;> cases hr <;> exact .redir h hfile

theorem Reads.addArg {tree : Cmd Span} {ws : List Word} {rs : List Redirection} {w : Span} {x : Word}
    (h : Reads inp tree ((Cmd.exec ws).redirs rs)) (hw : Spans inp w x) :
    Reads inp (tree.addArg w) ((Cmd.exec (ws ++ [x])).redirs rs) := by
  induction rs using List.reverseRecOn generalizing tree with
  | nil =>
    cases h with
    | exec hargs => exact .exec (List.rel_append hargs (.cons hw .nil))
  | append_singleton rs r ih =>
    rw [redirs_append] at h ⊢
    cases h with
    | redir htree hfile => exact .redir (ih htree) hfile

/-- What a part of the parser has read for the phrase `g`. -/
def Parses (inp : List UInt8) (g : Phrase) (s : Nat) (tree : Cmd Span) (t : Nat) : Prop :=
  s ≤ t ∧ t ≤ inp.length ∧
    ∃ ts c, rest inp s = ts ++ rest inp t ∧ Derives g ts c ∧ Reads inp tree c

/-- The part `m` of the parser, with `d` nested calls left, reads the phrase `g` or rejects. Each
token is worth four calls. -/
def SoundAt (inp : List UInt8) (g : Phrase) (m : P (Cmd Span)) (k d : Nat) : Prop :=
  ∀ s ≤ inp.length, 4 * (inp.length - s) + k ≤ d →
    Ensures m s (Parses inp g s) (fun e _ => Rejects e)

section Sound

variable (hnul : 0 ∉ inp) {d n s : Nat} {tree : Cmd Span} {c : Cmd Word}

include hnul

theorem take_yes {α : Type} {m m' : P α} {Q : α → Nat → Prop} {E : Stop → Nat → Prop}
    {t : Tok} {us : List Tok} (ht : t.single = true) (hs : s ≤ inp.length) (hrest : rest inp s = t :: us)
    (h : ∀ u, rest inp u = us → s < u → u ≤ inp.length → Ensures m u Q E) :
    Ensures (peek inp [t.code] >>= fun b => if b = true then gettoken inp >>= fun _ => m else m') s Q E := by
  have hsym : [t.code] ⊆ symbols := by cases t <;> cases ht <;> decide
  have hstarts : starts [t.code] (t :: us) = true := by cases t <;> cases ht <;> rfl
  apply peek_yes hnul hs hsym (hrest ▸ hstarts)
  intro s₁ hle₁ hs₁ hrest₁
  refine (gettoken_cons hnul hs₁ (hrest₁.trans hrest)).seq ?_
  rintro r u ⟨-, hu, hlt, hlen, -⟩
  exact h u hu (by omega) hlen

theorem take_single {α : Type} {m m' : P α} {Q : α → Nat → Prop} {E : Stop → Nat → Prop}
    (t : Tok) (ht : t.single = true) (hs : s ≤ inp.length)
    (hyes : ∀ us u, rest inp s = t :: us → rest inp u = us → s < u → u ≤ inp.length → Ensures m u Q E)
    (hno : ∀ u, rest inp u = rest inp s → s ≤ u → u ≤ inp.length → Ensures m' u Q E) :
    Ensures (peek inp [t.code] >>= fun b => if b = true then gettoken inp >>= fun _ => m else m') s Q E := by
  by_cases h : starts [t.code] (rest inp s) = true
  · obtain ⟨us, hus⟩ := starts_single ht h
    exact take_yes hnul ht hs hus fun u => hyes us u hus
  · have hsym : [t.code] ⊆ symbols := by cases t <;> cases ht <;> decide
    exact peek_no hnul hs hsym (Bool.eq_false_iff.mpr h) fun u hle hlen hrest => hno u hrest hle hlen

theorem redirsLoop_sound (hs : s ≤ inp.length) (hn : inp.length < s + n) (htree : Reads inp tree c) :
    Ensures (redirsLoop inp n tree) s
      (fun tree' t => s ≤ t ∧ t ≤ inp.length ∧
        ∃ ts rs, rest inp s = ts ++ rest inp t ∧ Redirs ts rs ∧ Reads inp tree' (c.redirs rs))
      (fun e _ => Rejects e) := by
  induction n generalizing s tree c with
  | zero => omega
  | succ n ih =>
    unfold redirsLoop
    refine (peek_ensures hnul hs (by simp [symbols])).seq ?_
    rintro r s₁ ⟨rfl, hrest₁, hle₁, hs₁⟩
    by_cases h : starts [lt, gt] (rest inp s) = true
    · rw [if_pos h]
      obtain ⟨op, us, hus, -, hop⟩ := starts_redirection h
      rw [← hrest₁] at hus
      refine (gettoken_cons hnul hs₁ hus).seq ?_
      rintro ⟨code, w₁⟩ s₂ ⟨rfl, hrest₂, hlt₂, hs₂, -⟩
      cases us with
      | nil =>
        refine (gettoken_nil hnul hs₂ hrest₂).seq ?_
        rintro ⟨code, w⟩ s₃ ⟨rfl, -⟩
        exact .throw trivial
      | cons u us =>
        refine (gettoken_cons hnul hs₂ hrest₂).seq ?_
        rintro ⟨code, file⟩ s₃ ⟨rfl, hrest₃, hlt₃, hs₃, hfile⟩
        by_cases hu : u.code ≠ letterA
        · simp only [if_pos hu]
          exact .throw trivial
        · simp only [if_neg hu]
          obtain ⟨x, rfl⟩ := Tok.code_eq_letterA (not_not.mp hu)
          obtain ⟨r, hr⟩ := hop x
          refine (ih hs₃ (by omega) (htree.redirect (hfile x rfl) hr)).post ?_
          rintro tree' t ⟨hle, ht, ts, rs, hts, hrs, htree'⟩
          refine ⟨by omega, ht, op :: .word x :: ts, r :: rs, ?_, .cons hr hrs, htree'⟩
          rw [← hrest₁, hus, ← hrest₃, hts]
          rfl
    · rw [if_neg h]
      exact .pure ⟨hle₁, hs₁, [], [], by rw [hrest₁]; rfl, .nil, htree⟩

theorem parseredirs_sound (hs : s ≤ inp.length) (htree : Reads inp tree c) :
    Ensures (parseredirs inp tree) s
      (fun tree' t => s ≤ t ∧ t ≤ inp.length ∧
        ∃ ts rs, rest inp s = ts ++ rest inp t ∧ Redirs ts rs ∧ Reads inp tree' (c.redirs rs))
      (fun e _ => Rejects e) :=
  redirsLoop_sound hnul hs (by omega) htree

theorem argsLoop_sound {ws : List Word} {rs : List Redirection} (hs : s ≤ inp.length)
    (hn : inp.length < s + n) (hws : ws.length < maxargs) (htree : Reads inp tree ((Cmd.exec ws).redirs rs)) :
    Ensures (argsLoop inp n ws.length tree) s
      (fun tree' t => s ≤ t ∧ t ≤ inp.length ∧
        ∃ ts ws' rs', rest inp s = ts ++ rest inp t ∧ Args ts ws' rs' ∧
          (ws ++ ws').length < maxargs ∧
          Reads inp tree' ((Cmd.exec (ws ++ ws')).redirs (rs ++ rs')))
      (fun e _ => Rejects e) := by
  induction n generalizing s tree ws rs with
  | zero => omega
  | succ n ih =>
    unfold argsLoop
    refine (peek_ensures hnul hs (by simp [symbols])).seq ?_
    rintro r s₁ ⟨rfl, hrest₁, hle₁, hs₁⟩
    have hdone : ∀ t, rest inp t = rest inp s → s ≤ t → t ≤ inp.length →
        s ≤ t ∧ t ≤ inp.length ∧ ∃ ts ws' rs', rest inp s = ts ++ rest inp t ∧ Args ts ws' rs' ∧
          (ws ++ ws').length < maxargs ∧
          Reads inp tree ((Cmd.exec (ws ++ ws')).redirs (rs ++ rs')) := by
      intro t ht hle hlen
      refine ⟨hle, hlen, [], [], [], ht.symm, .nil, ?_, ?_⟩
      · rwa [List.append_nil]
      · rwa [List.append_nil, List.append_nil]
    by_cases h : starts [bar, rparen, amp, semi] (rest inp s) = true
    · rw [if_pos h]
      exact .pure (hdone s₁ hrest₁ hle₁ hs₁)
    · rw [if_neg h]
      cases hus : rest inp s₁ with
      | nil =>
        refine (gettoken_nil hnul hs₁ hus).seq ?_
        rintro ⟨code, w⟩ s₂ ⟨rfl, hrest₂, hle₂, hs₂⟩
        exact .pure (hdone s₂ (by rw [hrest₂, ← hus, hrest₁]) (by omega) hs₂)
      | cons u us =>
        refine (gettoken_cons hnul hs₁ hus).seq ?_
        rintro ⟨code, w⟩ s₂ ⟨rfl, hrest₂, hlt₂, hs₂, hw⟩
        simp only [if_neg u.code_ne_zero]
        by_cases hu : u.code ≠ letterA
        · rw [if_pos hu]
          exact .throw trivial
        · rw [if_neg hu]
          obtain ⟨x, rfl⟩ := Tok.code_eq_letterA (not_not.mp hu)
          by_cases hmax : maxargs ≤ ws.length + 1
          · rw [if_pos hmax]
            exact .throw trivial
          · rw [if_neg hmax]
            have hlen : (ws ++ [x]).length = ws.length + 1 := List.length_append
            refine (parseredirs_sound hnul hs₂ (htree.addArg (hw x rfl))).seq ?_
            rintro tree₁ s₃ ⟨hle₃, hs₃, ts₁, rs₁, hrest₃, hredirs, htree₁⟩
            rw [← redirs_append] at htree₁
            rw [← hlen]
            refine (ih hs₃ (by omega) (by omega) htree₁).post ?_
            rintro tree' t ⟨hle, ht, ts, ws', rs', hts, hargs, hmax', htree'⟩
            refine ⟨by omega, ht, .word x :: (ts₁ ++ ts), x :: ws', rs₁ ++ rs', ?_,
              .cons hredirs hargs, ?_, ?_⟩
            · rw [← hrest₁, hus, ← hrest₂, hrest₃, hts, List.cons_append, List.append_assoc]
            · rwa [List.append_cons]
            · rwa [List.append_cons, ← List.append_assoc]

theorem parsesimple_sound (hs : s ≤ inp.length) :
    Ensures (parsesimple inp) s (Parses inp .exec s) (fun e _ => Rejects e) := by
  unfold parsesimple
  have hnil : Reads inp (.exec []) (.exec []) := .exec .nil
  refine (parseredirs_sound hnul hs hnil).seq ?_
  rintro tree s₁ ⟨hle₁, hs₁, ts, rs, hrest₁, hredirs, htree⟩
  refine (argsLoop_sound hnul hs₁ (by omega) (by decide) htree).post ?_
  rintro tree' t ⟨hle, ht, us, ws, rs', hus, hargs, hmax, htree'⟩
  refine ⟨by omega, ht, ts ++ us, _, ?_, .simple hredirs hargs hmax, htree'⟩
  rw [hrest₁, hus, List.append_assoc]

theorem backLoop_sound (hs : s ≤ inp.length) (hn : inp.length < s + n) (htree : Reads inp tree c) :
    Ensures (backLoop inp n tree) s
      (fun tree' t => s ≤ t ∧ t ≤ inp.length ∧
        ∃ k, rest inp s = List.replicate k .amp ++ rest inp t ∧ Reads inp tree' (Cmd.back^[k] c))
      (fun e _ => Rejects e) := by
  induction n generalizing s tree c with
  | zero => omega
  | succ n ih =>
    unfold backLoop
    apply take_single hnul .amp rfl hs
    · intro us s₂ hus hrest₂ hlt₂ hs₂
      refine (ih hs₂ (by omega) htree.back).post ?_
      rintro tree' t ⟨hle, ht, k, hk, htree'⟩
      refine ⟨by omega, ht, k + 1, ?_, htree'⟩
      rw [hus, ← hrest₂, hk, List.replicate_succ, List.cons_append]
    · intro s₁ hrest₁ hle₁ hs₁
      exact .pure ⟨hle₁, hs₁, 0, by rw [hrest₁]; rfl, htree⟩

theorem parseline_sound (hpipe : SoundAt inp .pipe (parsepipe inp d) 3 d)
    (hline : SoundAt inp .line (parseline inp d) 4 d) :
    SoundAt inp .line (parseline inp (d + 1)) 4 (d + 1) := by
  intro s hs hd
  unfold parseline
  refine (hpipe s hs (by omega)).seq ?_
  rintro tree₁ s₁ ⟨hle₁, hs₁, ts, c, hrest₁, hc, htree₁⟩
  refine (backLoop_sound hnul hs₁ (by omega) htree₁).seq ?_
  rintro tree₂ s₂ ⟨hle₂, hs₂, k, hrest₂, htree₂⟩
  apply take_single hnul .semi rfl hs₂
  · intro us s₄ hus hrest₄ hlt₄ hs₄
    refine (hline s₄ hs₄ (by omega)).seq ?_
    rintro right t ⟨hle, ht, vs, c', hvs, hc', hright⟩
    refine .pure ⟨by omega, ht, _, _, ?_, .list k hc hc', htree₂.list hright⟩
    rw [hrest₁, hrest₂, hus, ← hrest₄, hvs]
    simp only [List.append_assoc, List.cons_append]
  · intro s₃ hrest₃ hle₃ hs₃
    refine .pure ⟨by omega, hs₃, _, _, ?_, .line k hc, htree₂⟩
    rw [hrest₁, hrest₂, hrest₃, List.append_assoc]

theorem parsepipe_sound (hexec : SoundAt inp .exec (parseexec inp d) 2 d)
    (hpipe : SoundAt inp .pipe (parsepipe inp d) 3 d) :
    SoundAt inp .pipe (parsepipe inp (d + 1)) 3 (d + 1) := by
  intro s hs hd
  unfold parsepipe
  refine (hexec s hs (by omega)).seq ?_
  rintro tree₁ s₁ ⟨hle₁, hs₁, ts, c, hrest₁, hc, htree₁⟩
  apply take_single hnul .bar rfl hs₁
  · intro us s₃ hus hrest₃ hlt₃ hs₃
    refine (hpipe s₃ hs₃ (by omega)).seq ?_
    rintro right t ⟨hle, ht, vs, c', hvs, hc', hright⟩
    refine .pure ⟨by omega, ht, _, _, ?_, .pipe hc hc', htree₁.pipe hright⟩
    rw [hrest₁, hus, ← hrest₃, hvs, List.append_assoc, List.cons_append]
  · intro s₂ hrest₂ hle₂ hs₂
    exact .pure ⟨by omega, hs₂, _, _, by rw [hrest₁, hrest₂], .single hc, htree₁⟩

theorem parseblock_sound (hline : SoundAt inp .line (parseline inp d) 4 d) :
    SoundAt inp .exec (parseblock inp (d + 1)) 1 (d + 1) := by
  intro s hs hd
  unfold parseblock
  apply take_single hnul .lparen rfl hs
  · intro us s₂ hus hrest₂ hlt₂ hs₂
    refine (hline s₂ hs₂ (by omega)).seq ?_
    rintro tree s₃ ⟨hle₃, hs₃, ts, c, hts, hc, htree⟩
    apply take_single hnul .rparen rfl hs₃
    · intro vs s₅ hvs hrest₅ hlt₅ hs₅
      refine (parseredirs_sound hnul hs₅ htree).post ?_
      rintro tree' t ⟨hle, ht, ws, rs, hws, hrs, htree'⟩
      refine ⟨by omega, ht, _, _, ?_, .block hc hrs, htree'⟩
      rw [hus, ← hrest₂, hts, hvs, ← hrest₅, hws]
      simp only [List.append_assoc, List.cons_append]
    · exact fun _ _ _ _ => .throw trivial
  · exact fun _ _ _ _ => .throw trivial

theorem parseexec_sound (hblock : SoundAt inp .exec (parseblock inp d) 1 d) :
    SoundAt inp .exec (parseexec inp (d + 1)) 2 (d + 1) := by
  intro s hs hd
  unfold parseexec
  refine (peek_ensures hnul hs (by simp [symbols])).seq ?_
  rintro r s₁ ⟨rfl, hrest₁, hle₁, hs₁⟩
  have hpost : ∀ tree t, Parses inp .exec s₁ tree t → Parses inp .exec s tree t := by
    rintro tree t ⟨hle, ht, ts, c, hts, hc, htree⟩
    exact ⟨by omega, ht, ts, c, hrest₁ ▸ hts, hc, htree⟩
  by_cases h : starts [lparen] (rest inp s) = true
  · rw [if_pos h]
    exact (hblock s₁ hs₁ (by omega)).post hpost
  · rw [if_neg h]
    exact (parsesimple_sound hnul hs₁).post hpost

theorem parse_sound (d : Nat) :
    SoundAt inp .line (parseline inp d) 4 d ∧ SoundAt inp .pipe (parsepipe inp d) 3 d ∧
      SoundAt inp .exec (parseexec inp d) 2 d ∧ SoundAt inp .exec (parseblock inp d) 1 d := by
  induction d with
  | zero => refine ⟨?_, ?_, ?_, ?_⟩ <;> exact fun s hs hd => by omega
  | succ d ih =>
    obtain ⟨hline, hpipe, hexec, hblock⟩ := ih
    exact ⟨parseline_sound hnul hpipe hline, parsepipe_sound hnul hexec hpipe,
      parseexec_sound hnul hblock, parseblock_sound hnul hline⟩

theorem parseall_sound :
    Ensures (parseall inp) 0 (fun tree _ => ∃ c, Derives .line (tokens inp) c ∧ Reads inp tree c)
      (fun e _ => Rejects e) := by
  unfold parseall
  refine ((parse_sound hnul (depth inp)).1 0 (Nat.zero_le _) ?_).seq ?_
  · exact Nat.le_refl _
  rintro tree s ⟨-, hs, ts, c, hts, hc, htree⟩
  refine (peek_ensures hnul hs (List.nil_subset _)).seq ?_
  rintro r t ⟨-, hrest, -, ht⟩
  apply Ensures.bind_get
  by_cases hend : t ≠ inp.length
  · rw [if_pos hend]
    exact .throw trivial
  · rw [if_neg hend]
    have hnil : rest inp s = [] := by
      rw [← hrest, rest, not_not.mp hend, List.drop_length, tokens]
    rw [hnil, List.append_nil, rest, List.drop_zero] at hts
    exact .pure ⟨c, hts ▸ hc, htree⟩

end Sound

end Parser

end Xv6.Shell
