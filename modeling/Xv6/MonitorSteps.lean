import Xv6.Monitor

namespace Xv6.Threads

open Function

variable {n : Nat} {κ γ L D X : Type}

section Positions

variable {f f' g : Frame n Unit γ L} {old new rest : List (Frame n Unit γ L)}

theorem Frame.goes.position (h : f.goes f') (hf : f.position = none) : f'.position = none := by
  cases f <;> cases f' <;> first | rfl | exact h.elim | cases hf

theorem Frame.calls.position (h : f.calls g) : g.position = none := by
  cases f <;> cases g <;> first | rfl | exact h.elim

theorem Frame.goes.current_eq (h : f.goes f') (hf : f.position = none) :
    current (f' :: rest) = current (f :: rest) := by
  have hwakeup : ∀ ch ch' a a', current (.wakeup ch a :: rest : List (Frame n Unit γ L)) =
      current (.wakeup ch' a' :: rest) := by
    intro ch ch' a a'
    cases rest with
    | nil => rfl
    | cons g r => cases g <;> rfl
  cases f <;> cases f' <;> first | rfl | exact h.elim | exact hwakeup .. | cases hf

theorem Flow.positions (h : Flow old new) (hold : old = f :: rest) (hf : f.position = none) :
    positions new = positions old := by
  subst hold
  have hskip : ∀ {f : Frame n Unit γ L} {r}, f.position = none → positions (f :: r) = positions r :=
    fun hf => List.filterMap_cons_none hf
  cases h with
  | halt => rfl
  | go g g' r hold hg =>
    cases hold
    rw [hskip hf, hskip (hg.position hf)]
  | call g g' k r hold hg hc =>
    cases hold
    rw [hskip hf, hskip hc.position, hskip (hg.position hf)]
  | ret g r hold =>
    cases hold
    rw [hskip hf]

end Positions

namespace Monitor

variable {M : Monitor γ L D} {code : L → Instr Unit γ L D X} {d d' : D} {o : Option (Fin n)}
  {rest stk : List (Frame n Unit γ L)} {l : List (Lock n Unit)}

variable (M) in
inductive PosTurn (op : Op L X) (d : D) (user : Prop) (old : List L) : List L → D → Prop
  | same : PosTurn op d user old old d
  | move (x k : L) (r : List L) (d' : D) : old = x :: r → M.bad k = false → M.Goes x k d d' →
      PosTurn op d user old (k :: r) d'
  | ret (x : L) (r : List L) : old = x :: r → PosTurn op d user old r d
  | enter (x : L) : op = .syscall x ∧ user ∨ op = .intr x → PosTurn op d user old (x :: old) d

theorem posTurn {free : Prop} {op : Op L X} {old new : List (Frame n Unit γ L)}
    (hturn : Turn code (fun k => M.bad k = false) free op old d new d')
    (hchk : ∀ x r, old = .client x :: r ∨ old = .clientKilled x :: r → M.Checked code x d) :
    M.PosTurn op d (old = [.user]) (positions old) (positions new) d' := by
  cases hturn with
  | client x rest new hold hturn =>
    subst hold
    have hc := hchk x rest (.inl rfl)
    unfold Checked at hc
    cases hturn with
    | halt | killed f hcode => exact .same
    | acquire lk k hcode | release lk k hcode | sleep ch lk k hcode | wakeup ch k hcode =>
      rw [hcode] at hc
      exact .move x k _ d rfl hc.1 hc.2.1
    | ret hcode => exact .ret x _ rfl
  | killed x rest f b hold hcode hok =>
    subst hold
    have hc := hchk x rest (.inr rfl)
    rw [Checked, hcode] at hc
    exact .move x (f b) _ d rfl hok (hc b hok).1
  | access x rest f v hold hcode =>
    subst hold
    have hc := hchk x rest (.inl rfl)
    rw [Checked, hcode] at hc
    exact .move x _ _ _ rfl (hc v).bad (hc v).goes
  | enter x _ hop => exact .enter x hop
  | begin g _ _ hg =>
    rw [show positions (g :: old) = positions old from List.filterMap_cons_none hg]
    exact .same
  | other f rest new hold hf hflow =>
    rw [hflow.positions hold hf]
    exact .same
  | halt => exact .same

theorem PosTurn.keeps {op : Op L X} {user proc : Prop} {old new : List L} {E : L → Prop}
    (hM : M.Sound code) (h : M.PosTurn op d user old new d')
    (hold : ∀ x ∈ old, M.bad x = false ∧ M.own x d ∧ (M.sleeps x = true → proc))
    (hnest : old.Pairwise M.apart) (hown : ∀ z, E z → M.own z d)
    (hap : ∀ x ∈ old, ∀ z, E z → M.apart x z)
    (hentry : ∀ x, op = .syscall x ∧ user ∨ op = .intr x →
      M.entry x = true ∧ (M.sleeps x = true → proc)) :
    (∀ z, E z → M.own z d') ∧ new.Pairwise M.apart ∧
      ∀ x ∈ new, (M.bad x = false ∧ M.own x d' ∧ (M.sleeps x = true → proc)) ∧
        ∀ z, E z → M.apart x z := by
  cases h with
  | same => exact ⟨hown, hnest, fun x hx => ⟨hold x hx, hap x hx⟩⟩
  | ret x r hx =>
    subst hx
    exact ⟨hown, hnest.of_cons, fun y hy =>
      ⟨hold y (List.mem_cons_of_mem _ hy), hap y (List.mem_cons_of_mem _ hy)⟩⟩
  | move x k r d' hx hbad hgoes =>
    subst hx
    obtain ⟨-, -, hsl⟩ := hold x List.mem_cons_self
    obtain ⟨hhead, htail⟩ := List.pairwise_cons.mp hnest
    have hE : ∀ z, E z → M.own z d' ∧ M.apart k z := fun z hz =>
      hgoes.others z (hap x List.mem_cons_self z hz) (hown z hz)
    have hr : ∀ z ∈ r, M.own z d' ∧ M.apart k z := fun z hz =>
      hgoes.others z (hhead z hz) (hold z (List.mem_cons_of_mem _ hz)).2.1
    refine ⟨fun z hz => (hE z hz).1, List.pairwise_cons.mpr ⟨fun z hz => (hr z hz).2, htail⟩,
      fun y hy => ?_⟩
    rcases List.mem_cons.mp hy with rfl | hy
    · exact ⟨⟨hbad, hgoes.own, fun hk => hsl (hgoes.sleeps hk)⟩, fun z hz => (hE z hz).2⟩
    · obtain ⟨hb, -, hs⟩ := hold y (List.mem_cons_of_mem _ hy)
      exact ⟨⟨hb, (hr y hy).1, hs⟩, hap y (List.mem_cons_of_mem _ hy)⟩
  | enter x hop =>
    obtain ⟨hx, hproc⟩ := hentry x hop
    obtain ⟨-, hbad, ho, ha⟩ := hM.entry x hx
    refine ⟨hown, List.pairwise_cons.mpr ⟨fun z _ => ha z, hnest⟩, fun y hy => ?_⟩
    rcases List.mem_cons.mp hy with rfl | hy
    · exact ⟨⟨hbad, ho d, hproc⟩, fun z _ => ha z⟩
    · exact ⟨hold y hy, hap y hy⟩

theorem current_outside {x : L}
    (hfit : Fits M.locks o [] stk) (hx : current stk = some x) : M.inside x = false := by
  have hnil : ∀ x, M.locks x ([] : List (Lock n Unit)) → M.inside x = false := by
    intro x hx
    by_contra hin
    rw [locks, if_pos (by simpa using hin)] at hx
    cases hx
  unfold current at hx
  split at hx
  · cases hx
    exact hnil _ hfit.1
  · cases hx
    cases o with
    | none => exact hfit.1.elim
    | some p => cases hfit.1.1
  · next ch a x r =>
    cases hx
    cases a with
    | next i => exact hnil _ hfit.2.2.2.2.1
    | locked q => cases hfit.1
  · cases hx

theorem current_inside
    {x : L} (hfit : Fits M.locks o l stk) (hx : current stk = some x) (hin : M.inside x = true) :
    .client () ∈ l := by
  have hmem : ∀ l : List (Lock n Unit), M.locks x l → .client () ∈ l := by
    intro l hl
    rw [locks, hin] at hl
    rw [hl]
    exact List.mem_cons_self
  unfold current at hx
  split at hx
  · cases hx
    exact hmem _ hfit.1
  · cases hx
    cases o with
    | none => exact hfit.1.elim
    | some p => exact List.mem_of_mem_tail (hmem _ hfit.1.2)
  · next ch a x r =>
    cases hx
    cases a with
    | next i => exact hmem _ hfit.2.2.2.2.1
    | locked q => exact List.mem_of_mem_tail (hmem _ hfit.2.2.2.2.1)
  · cases hx

theorem current_mem {x : L} (hx : current stk = some x) :
    x ∈ positions stk := by
  unfold current at hx
  split at hx
  · cases hx
    exact List.mem_cons_self
  · cases hx
    exact List.mem_cons_self
  · cases hx
    exact List.mem_cons_self
  · cases hx

theorem current_stays {x : L} (hx : current stk = some x) :
    ∃ f r, stk = f :: r ∧ f.stays = true := by
  unfold current at hx
  split at hx
  · exact ⟨_, _, rfl, rfl⟩
  · exact ⟨_, _, rfl, rfl⟩
  · exact ⟨_, _, rfl, rfl⟩
  · cases hx

theorem sleep_lock {ch : γ} {lk : Lock n Unit} {a : SleepAt}
    (hfit : Fits M.locks o l (.sleep (.client ch) lk a :: rest)) :
    lk = .client () ∧ (a = .acquire ∨ a = .release → .client () ∈ l) := by
  have hlk : lk = .client () := by
    obtain ⟨-, -, -, hover, -⟩ := hfit
    simp only [Frame.Over] at hover
    split at hover
    · obtain ⟨_, _, -, hlk⟩ := hover
      exact hlk
    · obtain ⟨_, -, hch, -⟩ := hover
      cases hch
    · exact hover.elim
  refine ⟨hlk, fun ha => ?_⟩
  cases o with
  | none => exact hfit.1.elim
  | some p =>
    have hl : l = a.locks p lk := hfit.1
    rw [hl, hlk]
    rcases ha with rfl | rfl <;> simp [SleepAt.locks]

theorem Waker.holds (hw : M.Waker rest) (hfit : Fits M.locks o l rest) : .client () ∈ l := by
  obtain ⟨k, r, rfl, hk⟩ := hw
  exact current_inside hfit rfl hk

section Turns

variable {free : Prop} {op : Op L X} {old new : List (Frame n Unit γ L)} {d d' : D}
  {o : Option (Fin n)} {l : List (Lock n Unit)}
  (hM : M.Sound code) (hturn : Turn code (fun k => M.bad k = false) free op old d new d')
  (hchk : ∀ x r, old = .client x :: r ∨ old = .clientKilled x :: r → M.Checked code x d)
include hM hturn hchk

theorem pre_turn (hfit : Fits M.locks o l old) (hinv : M.inv d)
    (hpre : ∀ x, current old = some x → M.inside x = true → M.pre x d)
    (hres : ∀ ch lk a k r, .sleep ch lk a :: .client k :: r <:+ old →
      ∀ d, M.inv d → M.own k d → M.pre k d)
    (hown : ∀ x ∈ positions old, M.own x d)
    (hentry : ∀ x, op = .syscall x ∧ old = [.user] ∨ op = .intr x → M.entry x = true) {x : L}
    (hx : current new = some x) (hin : M.inside x = true) : M.pre x d' := by
  have hout : ∀ stk : List (Frame n Unit γ L), Fits M.locks o [] stk → current stk ≠ some x :=
    fun stk hf hc => by
      rw [current_outside hf hc] at hin
      cases hin
  cases hturn with
  | client y rest new hold hturn =>
    subst hold
    have hc := hchk y rest (.inl rfl)
    have hl := hM.locked y
    unfold Checked at hc
    unfold Locked at hl
    cases hturn with
    | halt | killed f hcode => exact hpre x hx hin
    | acquire lk k hcode =>
      rw [hcode] at hc
      cases hx
      exact hc.2.2
    | release lk k hcode =>
      rw [hcode] at hl
      cases hx
      rw [hl.2] at hin
      cases hin
    | sleep ch lk k hcode => cases hx
    | wakeup ch k hcode =>
      rw [hcode] at hc
      cases hx
      exact hc.2.2.1
    | ret hcode =>
      rw [hcode] at hl
      have hy : M.locks y l := hfit.1
      rw [locks, hl] at hy
      subst hy
      exact absurd hx (hout _ hfit.2.2.2.2)
  | killed y rest f b hold hcode hok =>
    subst hold
    have hc := hchk y rest (.inr rfl)
    have hl := hM.locked y
    rw [Checked, hcode] at hc
    rw [Locked, hcode] at hl
    cases hx
    exact (hc b hok).2.1 ((hl b).symm.trans hin)
  | access y rest f v hold hcode =>
    subst hold
    have hc := hchk y rest (.inl rfl)
    have hl := hM.locked y
    rw [Checked, hcode] at hc
    rw [Locked, hcode] at hl
    cases hx
    have hy : M.inside y = true := (hl v d).symm.trans hin
    obtain ⟨-, -, -, hpre', -⟩ := hc v
    rw [if_pos hy] at hpre'
    exact hpre'
  | enter y _ hop =>
    cases hx
    rw [(hM.entry x (hentry x hop)).1] at hin
    cases hin
  | begin g _ hg hpos =>
    cases g with
    | client y | clientKilled y => cases hpos
    | wakeup ch a => exact hg.elim
    | _ => cases hx
  | other f rest new hold hf hflow =>
    subst hold
    cases hflow with
    | halt => exact hpre x hx hin
    | go g g' r hold hg =>
      cases hold
      exact hpre x (hg.current_eq hf ▸ hx) hin
    | call g g' k r hold hg hc =>
      cases hold
      cases f with
      | kexit status b =>
        cases g' with
        | kexit status' b' => cases k <;> first | exact hc.elim | cases hx
        | _ => exact hg.elim
      | kwait addr b => cases k <;> first | exact hc.elim | cases hx
      | client y => cases hf
      | _ => exact hc.elim
    | ret g r hold =>
      cases hold
      cases f with
      | wakeup ch a =>
        cases new with
        | nil => cases hx
        | cons g r =>
          cases g with
          | client y => exact hpre x hx hin
          | clientKilled y | wakeup ch' a' => exact hfit.2.2.2.1.elim
          | _ => cases hx
      | sleep ch lk a =>
        cases new with
        | nil => cases hx
        | cons g r =>
          cases g with
          | client y =>
            cases hx
            exact hres ch lk a x r (List.suffix_refl _) d hinv (hown x List.mem_cons_self)
          | clientKilled y | wakeup ch' a' => exact hfit.2.2.2.1.elim
          | _ => cases hx
      | yield a => exact absurd hx (hout _ hfit.2.2.2.2)
      | client y => cases hf
      | clientKilled y => cases hf
      | _ =>
        cases hfit.2
        cases hx
  | halt => exact hpre x hx hin

omit hM in
theorem asleep_turn (hfit : Fits M.locks o l old) {l' : List (Lock n Unit)} (hfit' : Fits M.locks o l' new)
    {ch : γ} {lk : Lock n Unit} {a : SleepAt} {r : List (Frame n Unit γ L)}
    (hnew : new = .sleep (.client ch) lk a :: r) (ha : a = .acquire ∨ a = .release)
    (hold : ∀ b, b = .acquire ∨ b = .release → old = .sleep (.client ch) lk b :: r → ¬ M.ready ch d) :
    ¬ M.ready ch d' := by
  have hnil : ∀ {stk : List (Frame n Unit γ L)}, Fits M.locks o [] stk →
      stk ≠ .sleep (.client ch) lk a :: r := by
    rintro stk hf rfl
    rcases ha with rfl | rfl <;> cases o <;> cases hf.1
  cases hturn with
  | client y rest new hstk hturn =>
    subst hstk
    have hc := hchk y rest (.inl rfl)
    unfold Checked at hc
    cases hturn with
    | sleep ch' lk' k hcode =>
      rw [hcode] at hc
      cases hnew
      exact hc.2.2.2.1
    | ret hcode => exact absurd hnew (hnil hfit.2.2.2.2)
    | _ => cases hnew
  | killed y rest f b hstk hcode hok | access y rest f v hstk hcode | enter y _ hop => cases hnew
  | begin g _ hg hpos =>
    cases hnew
    exact hg.elim
  | other f rest new hstk hf hflow =>
    subst hstk
    cases hflow with
    | halt => exact hold a ha hnew
    | go g g' r' hstk hg =>
      cases hstk
      cases hnew
      cases f with
      | sleep ch' lk' b =>
        obtain ⟨rfl, rfl, hsucc⟩ := hg
        cases b with
        | acquire => exact hold .acquire (.inl rfl) rfl
        | release => exact hold .release (.inr rfl) rfl
        | _ => rcases ha with rfl | rfl <;> cases hsucc
      | _ => exact hg.elim
    | call g g' k r' hstk hg hc =>
      cases hstk
      cases hnew
      cases f with
      | client y => cases hf
      | kwait addr b =>
        cases g' with
        | kwait addr' b' =>
          obtain ⟨-, -, -, hover, -⟩ := hfit'
          simp only [Frame.Over] at hover
          split at hover
          · next heq => cases heq
          · obtain ⟨_, -, hch, -⟩ := hover
            cases hch
          · exact hover.elim
        | _ => exact hg.elim
      | _ => exact hc.elim
    | ret g r' hstk =>
      cases hstk
      cases f with
      | yield b => exact absurd hnew (hnil hfit.2.2.2.2)
      | wakeup ch' b | sleep ch' lk' b =>
        subst hnew
        exact hfit.2.2.2.1.elim
      | client y => cases hf
      | clientKilled y => cases hf
      | user | scheduler b => cases hfit.2.symm.trans hnew
      | _ => cases hfit.2.symm.trans hnew
  | halt => exact hold a ha hnew

omit hM in
theorem resumes_turn
    (hres : ∀ ch lk a k r, .sleep ch lk a :: .client k :: r <:+ old →
      ∀ d, M.inv d → M.own k d → M.pre k d) {ch : Chan n γ} {lk : Lock n Unit} {a : SleepAt} {k : L}
    {r : List (Frame n Unit γ L)} (hnew : .sleep ch lk a :: .client k :: r <:+ new) :
    ∀ d, M.inv d → M.own k d → M.pre k d := by
  have hskip : ∀ {f : Frame n Unit γ L} {stk}, (∀ ch lk a, f ≠ .sleep ch lk a) →
      .sleep ch lk a :: .client k :: r <:+ f :: stk → .sleep ch lk a :: .client k :: r <:+ stk := by
    intro f stk hf hs
    rcases List.suffix_cons_iff.mp hs with he | hs
    · cases he
      exact absurd rfl (hf _ _ _)
    · exact hs
  have hup : ∀ {f : Frame n Unit γ L} {stk}, .sleep ch lk a :: .client k :: r <:+ stk →
      .sleep ch lk a :: .client k :: r <:+ f :: stk := fun hs => hs.trans (List.suffix_cons _ _)
  cases hturn with
  | client y rest new hstk hturn =>
    subst hstk
    have hc := hchk y rest (.inl rfl)
    unfold Checked at hc
    cases hturn with
    | halt => exact hres _ _ _ _ _ hnew
    | acquire lk' k' hcode | release lk' k' hcode | killed f hcode =>
      exact hres _ _ _ _ _ (hup (hskip (by simp) hnew))
    | sleep ch' lk' k' hcode =>
      rcases List.suffix_cons_iff.mp hnew with he | hs
      · rw [hcode] at hc
        cases he
        exact hc.2.2.2.2
      · exact hres _ _ _ _ _ (hup (hskip (by simp) hs))
    | wakeup ch' k' hcode => exact hres _ _ _ _ _ (hup (hskip (by simp) (hskip (by simp) hnew)))
    | ret hcode => exact hres _ _ _ _ _ (hup hnew)
  | killed y rest f b hstk hcode hok | access y rest f v hstk hcode =>
    subst hstk
    exact hres _ _ _ _ _ (hup (hskip (by simp) hnew))
  | enter y _ hop => exact hres _ _ _ _ _ (hskip (by simp) hnew)
  | begin g _ hg hpos =>
    refine hres _ _ _ _ _ (hskip (fun ch lk a he => ?_) hnew)
    rw [he] at hg
    exact hg.elim
  | other f rest new hstk hf hflow =>
    subst hstk
    cases hflow with
    | halt => exact hres _ _ _ _ _ hnew
    | go g g' r' hstk hg =>
      cases hstk
      rcases List.suffix_cons_iff.mp hnew with he | hs
      · cases he
        cases f with
        | sleep ch' lk' b =>
          obtain ⟨rfl, rfl, -⟩ := hg
          exact hres _ _ b _ _ (List.suffix_refl _)
        | _ => exact hg.elim
      · exact hres _ _ _ _ _ (hup hs)
    | call g g' k' r' hstk hg hc =>
      cases hstk
      rcases List.suffix_cons_iff.mp hnew with he | hs
      · cases he
        cases hg.position hf
      · refine hres _ _ _ _ _ (hup (hskip (fun ch lk a he => ?_) hs))
        rw [he] at hg
        cases f <;> first | exact hc.elim | exact hg.elim
    | ret g r' hstk =>
      cases hstk
      exact hres _ _ _ _ _ (hup hnew)
  | halt => exact hres _ _ _ _ _ hnew

theorem owing_turn (hfree : ¬ free) (hfit : Fits M.locks o l old) {ch : γ} {x : L}
    (hx : current old = some x) (hch : M.owes ch x) : M.Owing ch new := by
  have hin := hM.owes ch x hch
  cases hturn with
  | client y rest new hstk hturn =>
    subst hstk
    cases hx
    have hc := hchk x rest (.inl rfl)
    have hl := hM.locked x
    unfold Checked at hc
    unfold Locked at hl
    cases hturn with
    | halt | killed f hcode => exact .inl ⟨x, rfl, hch⟩
    | acquire lk k hcode =>
      rw [hcode] at hl
      rw [hl.1] at hin
      cases hin
    | release lk k hcode =>
      rw [hcode] at hc
      exact absurd hch (hc.2.2 ch)
    | sleep ch' lk k hcode =>
      rw [hcode] at hc
      exact absurd hch (hc.2.2.1 ch)
    | wakeup ch' k hcode =>
      rw [hcode] at hc hl
      rcases hc.2.2.2 ch hch with rfl | hk
      · exact .inr ⟨.next 0, _, rfl, k, rest, rfl, hl.2⟩
      · exact .inl ⟨k, rfl, hk⟩
    | ret hcode =>
      rw [hcode] at hl
      rw [hl] at hin
      cases hin
  | killed y rest f b hstk hcode hok =>
    subst hstk
    cases hx
    have hc := hchk x rest (.inr rfl)
    rw [Checked, hcode] at hc
    exact .inl ⟨f b, rfl, (hc b hok).2.2 ch hch⟩
  | access y rest f v hstk hcode =>
    subst hstk
    cases hx
    have hc := hchk x rest (.inl rfl)
    rw [Checked, hcode] at hc
    exact .inl ⟨_, rfl, (hc v).owes ch hch⟩
  | enter y hf _ | begin g hf _ _ => exact absurd hf hfree
  | other f rest new hstk hf hflow =>
    subst hstk
    cases hflow with
    | halt => exact .inl ⟨x, hx, hch⟩
    | go g g' r hstk hg =>
      cases hstk
      exact .inl ⟨x, (hg.current_eq hf).trans hx, hch⟩
    | call g g' k r hstk hg hc =>
      cases hstk
      cases f with
      | client y => cases hf
      | kexit status b => cases hx
      | kwait addr b => cases hx
      | _ => exact hc.elim
    | ret g r hstk =>
      cases hstk
      cases f with
      | wakeup ch' a =>
        cases new with
        | nil => cases hx
        | cons g r =>
          cases g with
          | client y => exact .inl ⟨x, hx, hch⟩
          | _ => cases hx
      | client y => cases hf
      | clientKilled y => cases hf
      | _ => cases hx
  | halt => exact .inl ⟨x, hx, hch⟩

end Turns

section Step

variable {s t : Sys n κ Unit γ L D} {a : κ × Op L X}
  (hM : M.Sound code) (h : Inv M.locks s) (hh : M.Holds s) {c : κ} {ch : γ}
include hM h hh

theorem Holds.sleepsAlone : SleepsAlone code s a := by
  obtain ⟨c, op⟩ := a
  cases op with
  | go ok =>
    simp only [SleepsAlone]
    split
    · next x rest hstk =>
      obtain ⟨l, hl, hfit⟩ := h.cpu c
      rw [hstk] at hfit
      have hx : M.locks x l := hfit.1
      have hlocked := hM.locked x
      rw [Locked] at hlocked
      split
      · next ch lk k hcode =>
        rw [hcode] at hlocked
        rw [locks, hlocked.1] at hx
        subst hx
        obtain ⟨p, hp⟩ := (hh.each (s.thread c) x (by rw [hstk]; exact List.mem_cons_self)).2.2
          hlocked.2.2
        refine ⟨?_, (hl.mem _).mpr List.mem_cons_self, hl.noff⟩
        rw [Inv.thread_eq_proc hp]
        simp
      · next hcode =>
        rw [hcode] at hlocked
        rw [locks, hlocked] at hx
        subst hx
        exact hl.noff
      · trivial
    · trivial
  | _ => trivial

variable [DecidableEq κ] [DecidableEq γ]

variable (hall : M.Allows code s a) (ht : step code s a = some t)

omit hM hh in
include hall ht in
theorem Allows.turn : Turn code (fun k => M.bad k = false) (Holding s a.1 []) a.2
    (s.stack (s.thread a.1)) s.data (t.stack (s.thread a.1)) t.data := by
  refine h.turn (fun b hop x rest f p hstk hcode hcur => ?_) ht
  obtain ⟨c, op⟩ := a
  cases hop
  simp only [Allows, hstk, hcur, hcode] at hall
  exact hall

omit [DecidableEq κ] [DecidableEq γ] h in
theorem Holds.check (c : κ) (x : L) (r : List (Frame n Unit γ L))
    (hstk : s.stack (s.thread c) = .client x :: r ∨ s.stack (s.thread c) = .clientKilled x :: r) :
    M.Checked code x s.data := by
  have hmem : x ∈ positions (s.stack (s.thread c)) := by
    rcases hstk with hstk | hstk <;> rw [hstk] <;> exact List.mem_cons_self
  have hcur : current (s.stack (s.thread c)) = some x := by
    rcases hstk with hstk | hstk <;> rw [hstk] <;> rfl
  obtain ⟨hbad, hown, -⟩ := hh.each _ x hmem
  exact hM.checked x s.data hbad hh.data hown (hh.pre c x hcur)

include hall ht

theorem Holds.positions_step :
    (∀ y x, x ∈ positions (t.stack y) →
      M.bad x = false ∧ M.own x t.data ∧ (M.sleeps x = true → ∃ p, y = .proc p)) ∧
    (∀ y, (positions (t.stack y)).Pairwise M.apart) ∧
    ∀ y y' x x', y ≠ y' → x ∈ positions (t.stack y) → x' ∈ positions (t.stack y') → M.apart x x' := by
  have hpos := posTurn (hall.turn h ht) (hh.check hM a.1)
  have hother : ∀ y, y ≠ s.thread a.1 →
      positions (t.stack y) = positions (s.stack y) ∨ positions (t.stack y) = [] := by
    intro y hy
    rcases (h.outcome ht).others y hy with hs | ⟨q, -, -, hs⟩
    · exact .inl (by rw [hs])
    · exact .inr (by rw [hs]; rfl)
  have hmem : ∀ y, y ≠ s.thread a.1 → ∀ x, x ∈ positions (t.stack y) → x ∈ positions (s.stack y) := by
    intro y hy x hx
    rcases hother y hy with hs | hs
    · rwa [hs] at hx
    · rw [hs] at hx
      cases hx
  have hentry : ∀ x, a.2 = .syscall x ∧ s.stack (s.thread a.1) = [.user] ∨ a.2 = .intr x →
      M.entry x = true ∧ (M.sleeps x = true → ∃ p, s.thread a.1 = .proc p) := by
    obtain ⟨c, op⟩ := a
    rintro x (⟨hop, hu⟩ | hop)
    · cases hop
      refine ⟨hall, fun _ => ?_⟩
      obtain ⟨l, -, hfit⟩ := h.cpu c
      rw [hu] at hfit
      cases hcur : s.cur c with
      | none =>
        rw [hcur] at hfit
        exact hfit.1.elim
      | some p => exact ⟨p, thread_some hcur⟩
    · cases hop
      exact ⟨hall.1, fun hs => by simp [hall.2] at hs⟩
  obtain ⟨hown, hpair, hself⟩ := hpos.keeps hM
    (E := fun z => ∃ y, y ≠ s.thread a.1 ∧ z ∈ positions (s.stack y)) (hh.each _) (hh.nested _)
    (fun z ⟨y, _, hz⟩ => (hh.each y z hz).2.1)
    (fun x hx z ⟨y, hy, hz⟩ => hh.apart _ y x z hy.symm hx hz) hentry
  refine ⟨fun y x hx => ?_, fun y => ?_, fun y y' x x' hne hx hx' => ?_⟩
  · by_cases hy : y = s.thread a.1
    · rw [hy] at hx ⊢
      exact (hself x hx).1
    · have hxs := hmem y hy x hx
      obtain ⟨hbad, -, hsl⟩ := hh.each y x hxs
      exact ⟨hbad, hown x ⟨y, hy, hxs⟩, hsl⟩
  · by_cases hy : y = s.thread a.1
    · rw [hy]
      exact hpair
    · rcases hother y hy with hs | hs
      · rw [hs]
        exact hh.nested y
      · rw [hs]
        exact List.Pairwise.nil
  · by_cases hy : y = s.thread a.1
    · have hy' : y' ≠ s.thread a.1 := fun he => hne (hy.trans he.symm)
      rw [hy] at hx
      exact (hself x hx).2 x' ⟨y', hy', hmem y' hy' x' hx'⟩
    · by_cases hy' : y' = s.thread a.1
      · rw [hy'] at hx'
        exact hM.symm _ _ ((hself x' hx').2 x ⟨y, hy, hmem y hy x hx⟩)
      · exact hh.apart y y' x x' hne (hmem y hy x hx) (hmem y' hy' x' hx')

variable (ha : After M.locks s a.1 t)

theorem Holds.undisturbed (hlock : s.lock (.client ()) = some c) (hc : c ≠ a.1) :
    (∀ z ∈ positions (s.stack (s.thread c)), M.pre z s.data → M.pre z t.data) ∧
      ∀ ch, M.ready ch t.data → M.ready ch s.data := by
  have hturn := hall.turn h ht
  generalize t.stack (s.thread a.1) = new at hturn
  generalize t.data = d' at hturn ⊢
  cases hturn with
  | access x rest f v hstk hcode =>
    have hin : M.inside x = false := by
      by_contra hin
      obtain ⟨l, hl, hfit⟩ := h.cpu a.1
      rw [hstk] at hfit
      rw [(hl.mem _).mpr (current_inside hfit rfl (by simpa using hin))] at hlock
      exact hc (Option.some.inj hlock).symm
    have hlocked := hM.locked x
    rw [Locked, hcode] at hlocked
    have hchk := hh.check hM a.1 x rest (.inl hstk)
    rw [Checked, hcode] at hchk
    obtain ⟨-, -, -, hothers, -, hready⟩ := hchk v
    rw [hin] at hothers
    refine ⟨fun z hz => hothers z (hh.apart _ _ x z (h.thread_ne hc).symm ?_ hz), fun ch hr => ?_⟩
    · rw [hstk]
      exact List.mem_cons_self
    · refine (hready ch hr).resolve_right fun ho => ?_
      have hout := (hlocked v s.data).trans hin
      rw [hM.owes ch _ ho] at hout
      cases hout
  | _ => exact ⟨fun _ _ => id, fun _ => id⟩

include ha

theorem Holds.pre_step {x : L} (hx : current (t.stack (t.thread c)) = some x)
    (hin : M.inside x = true) : M.pre x t.data := by
  have ho := h.outcome ht
  by_cases hc : c = a.1
  · subst hc
    obtain ⟨f, r, hstk, hf⟩ := current_stays hx
    rw [ha.thread_eq h ho hstk hf] at hx
    obtain ⟨l, -, hfit⟩ := h.cpu a.1
    refine pre_turn hM (hall.turn h ht) (hh.check hM a.1) hfit hh.data (hh.pre a.1) (hh.resumes _)
      (fun y hy => (hh.each _ y hy).2.1) (fun y hop => ?_) hx hin
    obtain ⟨c, op⟩ := a
    rcases hop with ⟨hop, -⟩ | hop
    · cases hop
      exact hall
    · cases hop
      exact hall.1
  · rw [ha.other_stack h ho hc] at hx
    obtain ⟨l, hl, hfit⟩ := h.cpu c
    have hlock := (hl.mem _).mpr (current_inside hfit hx hin)
    exact (hh.undisturbed hM h hall ht hlock hc).1 x (current_mem hx) (hh.pre c x hx hin)

theorem Holds.asleep_step {lk : Lock n Unit} {b : SleepAt}
    {rest : List (Frame n Unit γ L)} (hstk : t.stack (t.thread c) = .sleep (.client ch) lk b :: rest)
    (hb : b = .acquire ∨ b = .release) : ¬ M.ready ch t.data := by
  have ho := h.outcome ht
  by_cases hc : c = a.1
  · subst hc
    have hthread := ha.thread_eq h ho hstk (by rcases hb with rfl | rfl <;> rfl)
    obtain ⟨l, -, hfit⟩ := h.cpu a.1
    obtain ⟨l', -, hfit'⟩ := ha.inv.cpu a.1
    rw [cur_of_thread hthread, hthread] at hfit'
    rw [hthread] at hstk
    exact asleep_turn (hall.turn h ht) (hh.check hM a.1) hfit hfit' hstk hb fun b' hb' hold =>
      hh.asleep a.1 ch lk b' rest hold hb'
  · rw [ha.other_stack h ho hc] at hstk
    obtain ⟨l, hl, hfit⟩ := h.cpu c
    have hlock := (hl.mem _).mpr ((sleep_lock (hstk ▸ hfit)).2 hb)
    exact fun hready => hh.asleep c ch lk b rest hstk hb ((hh.undisturbed hM h hall ht hlock hc).2 ch hready)

omit [DecidableEq κ] [DecidableEq γ] hh hall ht ha in
theorem Owing.locked (ho : M.Owing ch (s.stack (s.thread c))) :
    s.lock (.client ()) = some c := by
  obtain ⟨l, hl, hfit⟩ := h.cpu c
  rcases ho with ⟨x, hx, hch⟩ | ⟨b, rest, hstk, hw⟩
  · exact (hl.mem _).mpr (current_inside hfit hx (hM.owes ch x hch))
  · rw [hstk] at hfit
    obtain ⟨l', hsub, hfit'⟩ := hfit.of_wakeup
    exact (hl.mem _).mpr (hsub (hw.holds hfit'))

theorem Holds.owing_step {q : Fin n} (hc : Committed s (.client ch) q)
    (ho : M.Owing ch (s.stack (s.thread c))) : M.Owing ch (t.stack (t.thread c)) := by
  have hlock := Owing.locked hM h ho
  rcases ho with ⟨x, hx, hch⟩ | ⟨b, rest, hstk, hw⟩
  · by_cases hca : c = a.1
    · subst hca
      obtain ⟨l, hl, hfit⟩ := h.cpu a.1
      have hfree : ¬ Holding s a.1 [] := fun hf => by cases (hf.mem _).mp hlock
      have hnew := owing_turn hM (hall.turn h ht) (hh.check hM a.1) hfree hfit hx hch
      have hthread : t.thread a.1 = s.thread a.1 := by
        rcases hnew with ⟨y, hy, -⟩ | ⟨b, rest, hstk, -⟩
        · obtain ⟨f, r, hstk, hf⟩ := current_stays hy
          exact ha.thread_same h hstk hf
        · exact ha.thread_same h hstk rfl
      rw [hthread]
      exact hnew
    · rw [ha.other_stack h (h.outcome ht) hca]
      exact .inl ⟨x, hx, hch⟩
  · obtain ⟨b', hnew⟩ := (hh.swept ch).goes h ha ht hstk hw hlock hc
    exact .inr ⟨b', rest, hnew, hw⟩

/-- Who sleeps on a channel that is ready is going to be woken. -/
theorem Holds.owed_step {q : Fin n} (hc : Committed t (.client ch) q)
    (hready : M.ready ch t.data) : ∃ c, M.Owing ch (t.stack (t.thread c)) := by
  have ho := h.outcome ht
  have hturn := hall.turn h ht
  have hkept : t.data = s.data → ∃ c, M.Owing ch (t.stack (t.thread c)) := by
    intro hd
    rw [hd] at hready
    rcases hc.of_step h ha ho with hcs | ⟨-, lk, rest, hstk⟩
    · obtain ⟨c, hc⟩ := hh.owed ch q hcs hready
      exact ⟨c, hh.owing_step hM h hall ht ha hcs hc⟩
    · exact absurd hready (hh.asleep a.1 ch lk .release rest hstk (.inr rfl))
  generalize hnew : t.stack (s.thread a.1) = new at hturn
  generalize hd : t.data = d' at hturn
  cases hturn with
  | access x rest f v hstk hcode =>
    have hlocked := hM.locked x
    have hchk := hh.check hM a.1 x rest (.inl hstk)
    rw [Locked, hcode] at hlocked
    rw [Checked, hcode] at hchk
    obtain ⟨-, -, -, -, -, hwas⟩ := hchk v
    rw [hd] at hready
    rcases hwas ch hready with hs | hk
    · rcases hc.of_step h ha ho with hcs | ⟨-, lk, r, hr⟩
      · obtain ⟨c, hc⟩ := hh.owed ch q hcs hs
        exact ⟨c, hh.owing_step hM h hall ht ha hcs hc⟩
      · cases hstk.symm.trans hr
    · refine ⟨a.1, .inl ⟨_, ?_, hk⟩⟩
      rw [ha.thread_same h hnew rfl, hnew]
      rfl
  | _ => exact hkept hd

theorem Holds.step : M.Holds t := by
  have ho := h.outcome ht
  obtain ⟨heach, hnested, hapart⟩ := hh.positions_step hM h hall ht
  refine ⟨?_, heach, hnested, hapart, fun c x => hh.pre_step hM h hall ht ha, fun y ch lk b k r hs => ?_,
    fun c ch lk b rest => hh.asleep_step hM h hall ht ha, fun ch => ?_,
    fun ch q => hh.owed_step hM h hall ht ha⟩
  · have hturn := hall.turn h ht
    generalize t.stack (s.thread a.1) = new at hturn
    generalize t.data = d' at hturn ⊢
    cases hturn with
    | access x rest f v hstk hcode =>
      have hchk := hh.check hM a.1 x rest (.inl hstk)
      rw [Checked, hcode] at hchk
      exact (hchk v).inv
    | _ => exact hh.data
  · by_cases hy : y = s.thread a.1
    · subst hy
      exact resumes_turn (hall.turn h ht) (hh.check hM a.1) (hh.resumes _) hs
    · rcases ho.others y hy with hsame | ⟨q, -, -, hnew⟩
      · exact hh.resumes y ch lk b k r (hsame ▸ hs)
      · rw [hnew] at hs
        simp [List.suffix_cons_iff] at hs
  · refine Swept.step h ha ht (fun o l rest hw hfit => hw.holds hfit) (fun lk rest hstk => ?_) (hh.swept ch)
    obtain ⟨l, -, hfit⟩ := h.cpu a.1
    rw [hstk] at hfit
    exact (sleep_lock hfit).1

end Step

theorem Holds.init (p : Fin n) (d : D) (hd : M.inv d) : M.Holds (init p d : Sys n κ Unit γ L D) := by
  have hpos : ∀ y, positions ((Threads.init p d : Sys n κ Unit γ L D).stack y) = [] := by
    intro y
    cases y with
    | proc q =>
      simp only [Threads.init]
      split_ifs <;> rfl
    | sched c => rfl
  have hnone : ∀ q, ((Threads.init p d : Sys n κ Unit γ L D).proc q).state ≠ .sleeping := by
    intro q
    by_cases hq : q = p
    · simp [hq, Threads.init]
    · simp [Threads.init, update_of_ne hq]
  refine ⟨hd, fun y x hx => ?_, fun y => ?_, fun y y' x x' _ hx => ?_, fun c x hx => ?_,
    fun y ch lk a k r hs => ?_, fun c ch lk a rest hs => ?_, fun ch c a rest hs => ?_, fun ch q hc => ?_⟩
  · rw [hpos] at hx
    cases hx
  · rw [hpos]
    exact List.Pairwise.nil
  · rw [hpos] at hx
    cases hx
  · cases hx
  · have hmem : .client k ∈ (Threads.init p d : Sys n κ Unit γ L D).stack y :=
      hs.subset (List.mem_cons_of_mem _ List.mem_cons_self)
    have hk : k ∈ positions ((Threads.init p d : Sys n κ Unit γ L D).stack y) :=
      List.mem_filterMap.mpr ⟨_, hmem, rfl⟩
    rw [hpos] at hk
    cases hk
  · cases hs
  · cases hs
  · rcases hc with ⟨hs, -⟩ | ⟨c, lk, r, hcur, -⟩
    · exact absurd hs (hnone q)
    · cases hcur

theorem Sound.step [DecidableEq κ] [DecidableEq γ] (hM : M.Sound code) {s t : Sys n κ Unit γ L D}
    {a : κ × Op L X} (h : Inv M.locks s) (hh : M.Holds s) (hall : M.Allows code s a)
    (ht : Threads.step code s a = some t) : Inv M.locks t ∧ M.Holds t := by
  have hentry : ∀ x, a.2 = .syscall x ∨ a.2 = .intr x → M.locks x ([] : List (Lock n Unit)) := by
    obtain ⟨c, op⟩ := a
    rintro x (hop | hop)
    · cases hop
      rw [locks, (hM.entry x hall).1]
      rfl
    · cases hop
      rw [locks, (hM.entry x hall.1).1]
      rfl
  have ha := h.step hM.compat (hh.sleepsAlone hM h) hentry ht
  exact ⟨ha.inv, hh.step hM h hall ht ha⟩

open Xv6.Lib in
/-- In every run the claims hold. -/
theorem Sound.holds [DecidableEq κ] [DecidableEq γ] (hM : M.Sound code) {p : Fin n}
    (hd : M.inv d) {as : List (κ × Op L X)} {s : Sys n κ Unit γ L D}
    (hrun : Run (Threads.step code) (M.Allows code) (init p d) as s) : Inv M.locks s ∧ M.Holds s :=
  hrun.invariant (I := fun s => Inv M.locks s ∧ M.Holds s) (fun _ _ _ hs hall ht => hM.step hs.1 hs.2 hall ht)
    ⟨.init p d, .init p d hd⟩

/-- A channel that is ready has no sleeper while the lock is free. -/
theorem Holds.awake {s : Sys n κ Unit γ L D} (hM : M.Sound code) (h : Inv M.locks s) (hh : M.Holds s)
    (hfree : s.lock (.client ()) = none) {ch : γ} (hready : M.ready ch s.data) (q : Fin n) :
    ¬ ((s.proc q).state = .sleeping ∧ (s.proc q).chan = some (.client ch)) := by
  intro hs
  obtain ⟨c, hc⟩ := hh.owed ch q (.inl hs) hready
  rw [Owing.locked hM h hc] at hfree
  cases hfree

end Monitor

end Xv6.Threads
