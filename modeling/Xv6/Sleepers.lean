import Xv6.ThreadEffects

namespace Xv6.Threads

open Function

variable {n : Nat} {κ Λ γ L D X : Type}

/-- Process `p` sleeps on `ch`, or has given up the condition lock and is about to. -/
def Committed (s : Sys n κ Λ γ L D) (ch : Chan n γ) (p : Fin n) : Prop :=
  ((s.proc p).state = .sleeping ∧ (s.proc p).chan = some ch) ∨
    ∃ c lk rest, s.cur c = some p ∧ s.stack (.proc p) = .sleep ch lk .sched :: rest

def ScanAt.index : ScanAt n → Nat
  | .next i => i
  | .locked q => q

/-- A CPU that wakes the sleepers on `ch`, called from frames `G`, has left none behind. -/
def Swept (s : Sys n κ Λ γ L D) (ch : Chan n γ) (G : List (Frame n Λ γ L) → Prop) : Prop :=
  ∀ c a rest, s.stack (s.thread c) = .wakeup (some ch) a :: rest → G rest →
    ∀ q : Fin n, q.val < a.index → ¬ Committed s ch q

variable {A : L → List (Lock n Λ) → Prop} {s t : Sys n κ Λ γ L D} {c : κ} {ch : Chan n γ} {p q : Fin n}
  {f : Frame n Λ γ L} {rest stk r : List (Frame n Λ γ L)} {k k' : Lock n Λ} {l : List (Lock n Λ)}

theorem Inv.sched_locked (h : Inv A s) {lk : Lock n Λ} (hcur : s.cur c = some p)
    (hstk : s.stack (.proc p) = .sleep ch lk .sched :: rest) : s.lock (.proc p) = some c := by
  obtain ⟨l, hl, hlocks, -⟩ := h.fits hcur (thread_some hcur ▸ hstk)
  cases hlocks
  exact (hl.mem _).mpr List.mem_cons_self

theorem Inv.not_committed (h : Inv A s) (hcur : s.cur c = some p)
    (hstk : s.stack (s.thread c) = f :: rest) (hf : ∀ lk, f ≠ .sleep ch lk .sched) :
    ¬ Committed s ch p := by
  rintro (⟨hs, -⟩ | ⟨c', lk, r, -, hr⟩)
  · rcases h.running_or_locked hcur with hr | ⟨hz, -, -⟩
    · simp [hs] at hr
    · simp [hs] at hz
  · rw [← thread_some hcur, hstk] at hr
    exact hf lk (List.cons.inj hr).1

theorem After.picked_top (h : Inv A s) (ha : After A s c t) (ho : Outcome s c t)
    (hcur' : t.cur c = some p) (hcur : s.cur c ≠ some p) :
    ∃ g r, s.stack (.proc p) = g :: r ∧ t.stack (.proc p) = g :: r ∧ g.resumes = true := by
  have hrun := (ha.apart.picked p hcur').resolve_left hcur
  have hpark := h.parked p (h.not_current (by simp [hrun]) (by simp [hrun]))
  rw [ParkedAs, hrun] at hpark
  obtain ⟨g, r, hg, hres, -⟩ := hpark
  have hne : Thread.proc p ≠ s.thread c := fun he => hcur (Inv.thread_eq_proc he.symm)
  rcases ho.others _ hne with hsame | ⟨q, hq, hu, -⟩
  · exact ⟨g, r, hg, hsame.trans hg, hres⟩
  · cases hq
    simp [hrun] at hu

theorem Committed.of_step (h : Inv A s) (ha : After A s c t) (ho : Outcome s c t)
    (hc : Committed t ch p) : Committed s ch p ∨
      s.cur c = some p ∧ ∃ lk rest, s.stack (s.thread c) = .sleep ch lk .release :: rest := by
  rcases hc with ⟨hs, hch⟩ | ⟨c', lk, r, hcur', hstk'⟩
  · left
    have hsame : t.proc p = s.proc p → Committed s ch p := fun he => .inl (he ▸ ⟨hs, hch⟩)
    have hset : ∀ q x es, Sets s t q x es → p ≠ q → t.proc p = s.proc p := fun q x es hx hne => by
      rw [hx.proc, update_of_ne hne]
    have hself : ∀ x es, Sets s t p x es → x.state = .sleeping ∧ x.chan = some ch := by
      intro x es hx
      have hp : t.proc p = x := by rw [hx.proc, update_self]
      exact hp ▸ ⟨hs, hch⟩
    have hcase : ∀ q x es, Sets s t q x es →
        (q = p → x.state = .sleeping ∧ x.chan = some ch → Committed s ch p) → Committed s ch p := by
      intro q x es hx hq
      obtain rfl | hpq := eq_or_ne q p
      · exact hq rfl (hself x es hx)
      · exact hsame (hset q x es hx (Ne.symm hpq))
    cases ho.change with
    | same hp _ _ => exact hsame (by rw [hp])
    | run q x _ hx _ _ hs =>
      refine hcase q x _ hs fun _ ⟨hsl, _⟩ => ?_
      rcases hx with hx | hx <;> simp [hsl] at hx
    | sleep q ch' lk rest hcur hstk hs =>
      refine hcase q _ _ hs fun hq hx => .inr ⟨c, lk, rest, hq ▸ hcur, ?_⟩
      rw [← hq, ← thread_some hcur, hstk, Option.some.inj hx.2]
    | kill q pid rest _ _ hs =>
      refine hcase q _ _ hs fun hq ⟨hsl, hch⟩ => ?_
      subst hq
      simp only [kill] at hsl
      split_ifs at hsl with hsl'
      exact absurd hsl hsl'
    | setkilled q _ hs | parent p' q rest _ _ hs | reparent p' q status rest _ _ _ hs _ _ =>
      exact hcase q _ _ hs fun hq hx => .inl (hq ▸ hx)
    | alloc q rest _ _ hp _ _ =>
      by_cases hpq : p = q
      · rw [hp, hpq, update_self] at hs
        cases hs
      · exact hsame (by rw [hp, update_of_ne hpq])
    | abort q rest _ hs | zombie q status rest _ _ hs | reap p' q addr rest _ _ _ hs _ =>
      exact hcase q _ _ hs fun _ hx => by cases hx.1
  · by_cases hp : s.cur c = some p
    · rw [← thread_some hp] at hstk'
      rcases ho.sleep h hstk' with hsame | hrel
      · refine .inl (.inr ⟨c, lk, r, hp, ?_⟩)
        rw [← thread_some hp, hsame, hstk']
      · exact .inr ⟨hp, lk, r, hrel⟩
    · have hne : Thread.proc p ≠ s.thread c := fun he => hp (Inv.thread_eq_proc he.symm)
      have hstk : s.stack (.proc p) = .sleep ch lk .sched :: r := by
        rcases ho.others _ hne with hs | ⟨q, -, -, hnew⟩
        · rw [← hs, hstk']
        · rw [hnew] at hstk'
          cases hstk'
      by_cases hcc : c' = c
      · obtain ⟨g, _, hg, -, hres⟩ := ha.picked_top h ho (hcc ▸ hcur') hp
        rw [hstk] at hg
        cases hg
        cases hres
      · exact .inl (.inr ⟨c', lk, r, ha.apart.cur c' hcc ▸ hcur', hstk⟩)

def Frame.stays : Frame n Λ γ L → Bool
  | .client _ => true
  | .clientKilled _ => true
  | .wakeup _ _ => true
  | .sleep _ _ .acquire => true
  | .sleep _ _ .release => true
  | _ => false

theorem Frame.resumes_of_stays (hf : f.stays = true) : f.resumes = false := by
  cases f with
  | sleep ch lk a => cases a <;> first | rfl | cases hf
  | yield a => cases hf
  | forkret => cases hf
  | _ => rfl

theorem After.thread_eq (h : Inv A s) (ha : After A s c t) (ho : Outcome s c t)
    (htop : t.stack (t.thread c) = f :: rest) (hf : f.stays = true) : t.thread c = s.thread c := by
  cases hcur : t.cur c with
  | none =>
    cases hs : s.cur c with
    | none => rw [thread_none hcur, thread_none hs]
    | some p =>
      have hcp := ha.apart.kept p (h.cur c p hs) hs
      obtain ⟨-, hran, -⟩ := ha.inv.ran_locked hcp (by rw [hcur]; simp)
      rw [thread_none hcur, hran] at htop
      cases htop
      cases hf
  | some p =>
    by_cases hs : s.cur c = some p
    · rw [thread_some hcur, thread_some hs]
    · obtain ⟨g, _, -, hg, hres⟩ := ha.picked_top h ho hcur hs
      rw [thread_some hcur, hg] at htop
      cases htop
      rw [Frame.resumes_of_stays hf] at hres
      cases hres

theorem After.thread_same (h : Inv A s) (ha : After A s c t) (htop : t.stack (s.thread c) = f :: rest)
    (hf : f.stays = true) : t.thread c = s.thread c := by
  cases hs : s.cur c with
  | none =>
    cases hcur : t.cur c with
    | none => rw [thread_none hcur, thread_none hs]
    | some p =>
      rw [thread_none hs] at htop
      have hran := (ha.inv.ran c).symm.trans (ha.inv.cur c p hcur)
      rw [htop] at hran
      cases f with
      | scheduler a => cases hf
      | _ => cases hran
  | some p =>
    by_cases hcur : t.cur c = some p
    · rw [thread_some hcur, thread_some hs]
    · exfalso
      have hcp := ha.apart.kept p (h.cur c p hs) hs
      have hoff : ∀ c', t.cur c' ≠ some p := fun c' hc' =>
        hcur (ha.inv.once c c' p hcp (ha.inv.cur c' p hc') ▸ hc')
      have hlive := ha.inv.live c p hcp
      have hpark := ha.inv.parked p hoff
      rw [← thread_some hs, htop, ParkedAs] at hpark
      split at hpark
      · next hu => exact hlive.1 hu
      · next hu => exact hlive.2 hu
      · obtain ⟨ch, lk, r, he, -⟩ := hpark
        cases he
        cases hf
      · obtain ⟨g, r, he, hres, -⟩ := hpark
        cases he
        rw [Frame.resumes_of_stays hf] at hres
        cases hres
      · exact hpark
      · obtain ⟨status, r, he⟩ := hpark
        cases he
        cases hf

theorem cur_of_thread (h : t.thread c = s.thread c) : t.cur c = s.cur c := by
  unfold Sys.thread at h
  split at h
  · next p hp =>
    split at h
    · next q hq =>
      cases h
      rw [hp, hq]
    · cases h
  · next hp =>
    split at h
    · cases h
    · next hq => rw [hp, hq]

theorem After.other_stack (h : Inv A s) (ha : After A s c t) (ho : Outcome s c t) {c' : κ}
    (hc : c' ≠ c) : t.stack (t.thread c') = s.stack (s.thread c') := by
  have hthread : t.thread c' = s.thread c' := by simp only [Sys.thread, ha.apart.cur c' hc]
  rw [hthread]
  rcases ho.others _ (h.thread_ne hc) with hsame | ⟨q, hq, hu, -⟩
  · exact hsame
  · exact absurd hu (h.live c' q (h.cur c' q (Inv.thread_eq_proc hq))).1

theorem not_committed_wake [DecidableEq γ] (h : Inv A t) (hproc : t.proc q = wake (some ch) (s.proc q))
    (hlock : t.lock (.proc q) = none) : ¬ Committed t ch q := by
  rintro (⟨hs, hch⟩ | ⟨c', lk, r, hcur, hstk⟩)
  · rw [hproc, wake] at hs hch
    split_ifs at hs hch with hw
    exact hw ⟨hs, hch⟩
  · rw [h.sched_locked hcur hstk] at hlock
    cases hlock

theorem goto_stack [DecidableEq κ] {u : Sys n κ Λ γ L D} : (u.goto c stk).stack (u.thread c) = stk :=
  update_self ..

section Sweep

variable {G : List (Frame n Λ γ L) → Prop}
  {a b : ScanAt n}

theorem Fits.wakeup_under {o : Option (Fin n)} {ch : Option (Chan n γ)}
    (hfit : Fits A o l (f :: .wakeup ch b :: rest)) : Fits A o [] rest := by
  have hnil : Fits A o [] (.wakeup ch b :: rest) → Fits A o [] rest := by
    intro h
    cases b with
    | next i => exact h.2.2.2.2
    | locked q => cases h.1
  cases f with
  | client x | clientKilled x | yield a => exact hnil hfit.2.2.2.2
  | sleep ch' lk' a | wakeup ch' a => exact hfit.2.2.2.1.elim
  | _ => cases hfit.2

theorem Fits.of_wakeup {o : Option (Fin n)} {ch : Option (Chan n γ)}
    (hfit : Fits A o l (.wakeup ch b :: rest)) : ∃ l' ⊆ l, Fits A o l' rest := by
  cases b with
  | next i => exact ⟨l, List.Subset.refl l, hfit.2.2.2.2⟩
  | locked q => exact ⟨l.tail, fun _ => List.mem_of_mem_tail, hfit.2.2.2.2⟩

theorem Swept.done {i : Nat} (hsw : Swept s ch G)
    (hstk : s.stack (s.thread c) = .wakeup (some ch) (.next i) :: rest) (hG : G rest) (hi : n ≤ i) :
    ¬ Committed s ch q :=
  hsw c _ rest hstk hG q (Nat.lt_of_lt_of_le q.isLt hi)

variable [DecidableEq κ] [DecidableEq Λ] [DecidableEq γ]

theorem Swept.wakeupStep (h : Inv A s) (ha : After A s c t) (ho : Outcome s c t)
    (hsw : Swept s ch G) (hstk : s.stack (s.thread c) = .wakeup (some ch) a :: rest)
    (hG : G rest) (ht : wakeupStep s c rest (some ch) a = some t)
    (htop : t.stack (s.thread c) = .wakeup (some ch) b :: rest) (hq : q.val < b.index) :
    ¬ Committed t ch q := by
  have hback : Committed t ch q → Committed s ch q := fun hc =>
    (hc.of_step h ha ho).resolve_right fun ⟨_, lk, r, hr⟩ => by
      rw [hstk] at hr
      cases hr
  have hbefore : q.val < a.index → ¬ Committed t ch q := fun hlt hc =>
    hsw c a rest hstk hG q hlt (hback hc)
  have hsame : t.stack (s.thread c) = s.stack (s.thread c) → ¬ Committed t ch q := fun he => by
    rw [htop, hstk] at he
    cases he
    exact hbefore hq
  cases a with
  | next i =>
    rw [Threads.wakeupStep] at ht
    split_ifs at ht with hi hself
    · cases ht
      cases goto_stack.symm.trans htop
      rcases Nat.lt_succ_iff_lt_or_eq.mp hq with hlt | heq
      · exact hbefore hlt
      · have hqi : q = ⟨i, hi⟩ := Fin.ext heq
        have hcur : s.cur c = some q := by
          by_contra hne
          obtain ⟨hnone, hran, -⟩ := h.ran_locked (hqi ▸ hself) hne
          rw [thread_none hnone, hran] at hstk
          cases hstk
        exact fun hc => h.not_committed hcur hstk (fun lk he => by cases he) (hback hc)
    · unfold Sys.acquire at ht
      split_ifs at ht
      · cases ht
        exact hsame rfl
      · cases ht
        cases goto_stack.symm.trans htop
        exact hbefore hq
    · cases ht
      have hpop : rest = .wakeup (some ch) b :: rest := goto_stack.symm.trans htop
      simpa using congrArg List.length hpop
  | locked q' =>
    by_cases hlock : s.lock (.proc q') = some c
    · have ht' : t = ((s.setProc q' (wake (some ch) (s.proc q'))).drop c (.proc q')).goto c
          (.wakeup (some ch) (.next (q' + 1)) :: rest) :=
        (Option.some.inj ht).symm.trans (if_pos hlock)
      have hb : b = .next (q' + 1) := by
        rw [ht'] at htop
        cases goto_stack.symm.trans htop
        rfl
      rw [hb] at hq
      rcases Nat.lt_succ_iff_lt_or_eq.mp hq with hlt | heq
      · exact hbefore hlt
      · cases Fin.ext heq
        refine not_committed_wake (s := s) ha.inv ?_ ?_
        · rw [ht']
          exact update_self ..
        · rw [ht']
          exact update_self ..
    · have ht' : t = (s.setProc q' (wake (some ch) (s.proc q'))).panic "release" :=
        (Option.some.inj ht).symm.trans (if_neg hlock)
      exact hsame (by rw [ht']; rfl)

/-- If sleepers on `ch` give up the lock `k`, which those that call `wakeup` hold, none escapes. -/
theorem Swept.step {code : L → Instr Λ γ L D X} {a : κ × Op L X} (h : Inv A s) (ha : After A s a.1 t)
    (ht : step code s a = some t) (hG : ∀ o l rest, G rest → Fits A o l rest → k ∈ l)
    (hlk : ∀ lk rest, s.stack (s.thread a.1) = .sleep ch lk .release :: rest → lk = k) (hsw : Swept s ch G) :
    Swept t ch G := by
  obtain ⟨c, op⟩ := a
  have ho := h.outcome ht
  intro c1 b rest htop hg q hq
  obtain rfl | hc := eq_or_ne c1 c
  · rw [ha.thread_eq h ho htop rfl] at htop
    rcases ho.wakeup htop with rfl | ⟨b', hs⟩ | ⟨f, hs⟩
    · exact absurd hq (Nat.not_lt_zero _)
    · rcases step_cases ht with ⟨ok, f, r, -, hr, ht⟩ | ⟨v, x, r, -, hr, -⟩ | ht
      · cases hs.symm.trans hr
        exact hsw.wakeupStep h ha ho hs hg ht htop hq
      · cases hs.symm.trans hr
      · rcases enterStep_cases ht with rfl | ⟨f, -, -, rfl⟩
        · exact hsw c1 b rest htop hg q hq
        · have hlen := congrArg List.length (goto_stack.symm.trans htop)
          simp [hs] at hlen
    · obtain ⟨l, -, hfit⟩ := h.cpu c1
      rw [hs] at hfit
      exact absurd (hG _ _ rest hg hfit.wakeup_under) List.not_mem_nil
  · have hstk : s.stack (s.thread c1) = .wakeup (some ch) b :: rest :=
      (ha.other_stack h ho hc).symm.trans htop
    intro hcq
    rcases hcq.of_step h ha ho with hcs | ⟨hcur, lk, r, hr⟩
    · exact hsw c1 b rest hstk hg q hq hcs
    · obtain ⟨l, hl, hlocks, -⟩ := h.fits hcur hr
      cases hlocks
      obtain ⟨l1, hl1, hfit1⟩ := h.cpu c1
      rw [hstk] at hfit1
      obtain ⟨l', hsub, hfit'⟩ := hfit1.of_wakeup
      have hk1 : s.lock k = some c1 := (hl1.mem k).mpr (hsub (hG _ _ rest hg hfit'))
      have hk : s.lock k = some c := (hl.mem k).mpr (by simp [SleepAt.locks, hlk lk r hr])
      exact hc (Option.some.inj (hk1.symm.trans hk))

theorem wakeupStep_goes {ch : Option (Chan n γ)}
    (hstk : s.stack (s.thread c) = .wakeup ch a :: rest) (ht : wakeupStep s c rest ch a = some t) :
    t.cur = s.cur ∧ ((∃ a', t.stack (s.thread c) = .wakeup ch a' :: rest) ∨
      ∃ i, a = .next i ∧ n ≤ i ∧ t = s.goto c rest) := by
  cases a with
  | next i =>
    rw [Threads.wakeupStep] at ht
    split_ifs at ht with hi
    · cases ht
      exact ⟨rfl, .inl ⟨_, goto_stack⟩⟩
    · unfold Sys.acquire at ht
      split_ifs at ht
      · cases ht
        exact ⟨rfl, .inl ⟨_, hstk⟩⟩
      · cases ht
        exact ⟨rfl, .inl ⟨_, goto_stack⟩⟩
    · cases ht
      exact ⟨rfl, .inr ⟨i, rfl, Nat.le_of_not_lt hi, rfl⟩⟩
  | locked q =>
    cases ht
    unfold Sys.release
    split_ifs
    · exact ⟨rfl, .inl ⟨_, goto_stack⟩⟩
    · exact ⟨rfl, .inl ⟨_, hstk⟩⟩

theorem Swept.goes {code : L → Instr Λ γ L D X} {a : κ × Op L X} (h : Inv A s)
    (ha : After A s a.1 t) (ht : Threads.step code s a = some t) (hsw : Swept s ch G)
    (hstk : s.stack (s.thread c) = .wakeup (some ch) b :: rest) (hG : G rest)
    (hlock : s.lock k = some c) (hc : Committed s ch q) :
    ∃ b', t.stack (t.thread c) = .wakeup (some ch) b' :: rest := by
  by_cases hca : c = a.1
  · subst hca
    rcases step_cases ht with ⟨ok, f, r, -, hr, hgo⟩ | ⟨v, x, r, -, hr, -⟩ | hent
    · cases hstk.symm.trans hr
      obtain ⟨hcur, ⟨b', hnew⟩ | ⟨i, rfl, hi, -⟩⟩ := wakeupStep_goes hstk hgo
      · refine ⟨b', ?_⟩
        simp only [Sys.thread, hcur]
        exact hnew
      · exact absurd hc (hsw.done hstk hG hi)
    · cases hstk.symm.trans hr
    · cases h.enter_locked hlock hent
      exact ⟨b, hstk⟩
  · exact ⟨b, (ha.other_stack h (h.outcome ht) hca).trans hstk⟩

end Sweep

end Xv6.Threads
