import Xv6.ThreadMoves

namespace Xv6.Threads

open Function

variable {n : Nat} {κ Λ γ L D X : Type} {A : L → List (Lock n Λ) → Prop}
  {s t : Sys n κ Λ γ L D} {c : κ} {l : List (Lock n Λ)} {rest stk : List (Frame n Λ γ L)}
  {p q : Fin n} {x : Proc n γ}

namespace Inv

theorem sched_stack (h : Inv A s) (hcur : s.cur c = some p) :
    s.stack (.sched c) = [.scheduler (.ran p)] := by
  have hr := h.ran c
  rw [h.cur c p hcur] at hr
  unfold ranOf at hr
  split at hr
  · next heq => rw [heq, Option.some.inj hr]
  · cases hr

variable [DecidableEq κ]

theorem switchOut (h : Inv A s) (hcur : s.cur c = some p) (hl : Holding s c [.proc p])
    (hx : x.state ≠ .unused ∧ x.state ≠ .used) (hpark : ParkedAs A p x stk)
    (hchild : ∀ f ∈ stk, ∀ q, f.child = some q → ∃ f' ∈ s.stack (.proc p), f'.child = some q)
    (tcur : t.cur = update s.cur c none) (tcproc : t.cproc = s.cproc) (tproc : t.proc = update s.proc p x)
    (tstack : t.stack = update s.stack (.proc p) stk) (tlock : t.lock = s.lock) (tnoff : t.noff = s.noff) :
    Inv A t := by
  obtain ⟨hself, hne⟩ := eq_update_iff.mp tproc
  obtain ⟨hmine, hstack⟩ := eq_update_iff.mp tstack
  obtain ⟨hoff, hcurne⟩ := eq_update_iff.mp tcur
  have hproc : ∀ q, q ≠ p → t.stack (.proc q) = s.stack (.proc q) := fun q hq =>
    hstack _ fun he => hq (Thread.proc.inj he)
  have hhold : ∀ c l, Holding s c l → Holding t c l := fun c l hl =>
    ⟨by rw [tlock]; exact hl.mem, hl.nodup, by rw [tnoff]; exact hl.noff⟩
  have hstays : ∀ c' q, t.cur c' = some q → c' ≠ c ∧ s.cur c' = some q := by
    intro c' q hc'
    have hcc : c' ≠ c := fun he => by simp [he, hoff] at hc'
    exact ⟨hcc, hcurne c' hcc ▸ hc'⟩
  have hfrom : ∀ p' q f, f ∈ t.stack (.proc p') → f.child = some q →
      ∃ f' ∈ s.stack (.proc p'), f'.child = some q := by
    intro p' q f hf hq
    obtain rfl | hpp := eq_or_ne p' p
    · rw [hmine] at hf
      exact hchild f hf q hq
    · rw [hproc p' hpp] at hf
      exact ⟨f, hf, hq⟩
  refine ⟨fun c' => ?_, fun c' => ?_, fun c' q hc' => ?_, tcproc ▸ h.once, fun c' q hq => ?_,
    fun c' q hc' => ?_, fun q hq => ?_, fun p' q f hf hq => ?_,
    fun p' p'' q f f' hf hf' hq hq' => ?_⟩
  · obtain rfl | hcc := eq_or_ne c' c
    · rw [thread_none hoff, hoff, hstack _ (by simp), h.sched_stack hcur]
      exact ⟨[.proc p], hhold _ _ hl, rfl, rfl⟩
    · obtain ⟨l', hl', hfit'⟩ := h.cpu c'
      have hthread : t.thread c' = s.thread c' := by simp only [Sys.thread, hcurne c' hcc]
      rw [hthread, hcurne c' hcc, hstack _ (thread_some hcur ▸ h.thread_ne hcc)]
      exact ⟨l', hhold _ _ hl', hfit'⟩
  · rw [tcproc, h.ran c', hstack _ (by simp)]
  · rw [tcproc]
    exact h.cur c' q (hstays c' q hc').2
  · rw [tcproc] at hq
    by_cases hqp : q = p
    · rw [hqp, hself]
      exact hx
    · rw [hne q hqp]
      exact h.live c' q hq
  · obtain ⟨hcc, hq⟩ := hstays c' q hc'
    have hqp : q ≠ p := fun he => hcc (h.cur_once (he ▸ hq) hcur)
    rw [hne q hqp, hproc q hqp, h.active c' q hq]
  · by_cases hqp : q = p
    · rw [hqp, hself, hmine]
      exact hpark
    · rw [hne q hqp, hproc q hqp]
      refine h.parked q fun c' hc' => ?_
      by_cases hcc : c' = c
      · rw [hcc, hcur] at hc'
        exact hqp (Option.some.inj hc').symm
      · exact hq c' (hcurne c' hcc ▸ hc')
  · obtain ⟨f', hf', hq'⟩ := hfrom p' q f hf hq
    have hu := h.child p' q f' hf' hq'
    have hqp : q ≠ p := fun he => (h.live c p (h.cur c p hcur)).2 (he ▸ hu)
    rw [hne q hqp]
    exact hu
  · obtain ⟨g, hg, hgq⟩ := hfrom p' q f hf hq
    obtain ⟨g', hg', hgq'⟩ := hfrom p'' q f' hf' hq'
    exact h.alone p' p'' q g g' hg hg' hgq hgq'

theorem switchIn (h : Inv A s) (hcur : s.cur c = none) (hl : Holding s c [.proc q])
    (hfit : Fits A (some q) [.proc q] (s.stack (.proc q))) (hexit : exiting (s.stack (.proc q)) = false)
    (hfree : ∀ c', s.cproc c' ≠ some q) (hused : (s.proc q).state ≠ .used) (hx : x.state = .running)
    (tcur : t.cur = update s.cur c (some q)) (tcproc : t.cproc = update s.cproc c (some q))
    (tproc : t.proc = update s.proc q x)
    (tstack : t.stack = update s.stack (.sched c) [.scheduler (.ran q)]) (tlock : t.lock = s.lock)
    (tnoff : t.noff = s.noff) : Inv A t := by
  obtain ⟨hself, hne⟩ := eq_update_iff.mp tproc
  obtain ⟨hmine, hstack⟩ := eq_update_iff.mp tstack
  obtain ⟨hon, hcurne⟩ := eq_update_iff.mp tcur
  obtain ⟨hcp, hcpne⟩ := eq_update_iff.mp tcproc
  have hproc : ∀ p, t.stack (.proc p) = s.stack (.proc p) := fun p => hstack _ (by simp)
  have hhold : ∀ c l, Holding s c l → Holding t c l := fun c l hl =>
    ⟨by rw [tlock]; exact hl.mem, hl.nodup, by rw [tnoff]; exact hl.noff⟩
  refine ⟨fun c' => ?_, fun c' => ?_, fun c' p hp => ?_, fun c' c'' p hp hp' => ?_, fun c' p hp => ?_,
    fun c' p hp => ?_, fun p hp => ?_, fun p p' f hf hp' => ?_, ?_⟩
  · by_cases hcc : c' = c
    · rw [hcc, thread_some hon, hon, hproc]
      exact ⟨[.proc q], hhold _ _ hl, hfit⟩
    · obtain ⟨l', hl', hfit'⟩ := h.cpu c'
      have hthread : t.thread c' = s.thread c' := by simp only [Sys.thread, hcurne c' hcc]
      rw [hthread, hcurne c' hcc, hstack _ (thread_none hcur ▸ h.thread_ne hcc)]
      exact ⟨l', hhold _ _ hl', hfit'⟩
  · by_cases hcc : c' = c
    · rw [hcc, hcp, hmine]
      rfl
    · rw [hcpne c' hcc, h.ran c', hstack _ (by simpa using hcc)]
  · by_cases hcc : c' = c
    · rw [hcc] at hp ⊢
      rw [hcp, ← hon, hp]
    · rw [hcpne c' hcc]
      exact h.cur c' p (hcurne c' hcc ▸ hp)
  · by_cases hcc : c' = c
    · by_cases hcc' : c'' = c
      · rw [hcc, hcc']
      · rw [hcc, hcp] at hp
        rw [hcpne c'' hcc', ← hp] at hp'
        exact absurd hp' (hfree c'')
    · rw [hcpne c' hcc] at hp
      by_cases hcc' : c'' = c
      · rw [hcc', hcp, ← hp] at hp'
        exact absurd hp'.symm (hfree c')
      · exact h.once c' c'' p hp (hcpne c'' hcc' ▸ hp')
  · by_cases hpq : p = q
    · rw [hpq, hself]
      simp [hx]
    · rw [hne p hpq]
      have hcc : c' ≠ c := fun he => hpq (Option.some.inj ((he ▸ hp).symm.trans hcp))
      exact h.live c' p (hcpne c' hcc ▸ hp)
  · by_cases hpq : p = q
    · rw [hpq, hself, hproc, hexit]
      exact hx
    · have hcc : c' ≠ c := fun he => hpq (Option.some.inj ((he ▸ hp).symm.trans hon))
      rw [hne p hpq, hproc]
      exact h.active c' p (hcurne c' hcc ▸ hp)
  · have hpq : p ≠ q := fun he => hp c (he ▸ hon)
    rw [hne p hpq, hproc]
    refine h.parked p fun c' hc' => ?_
    by_cases hcc : c' = c
    · rw [hcc, hcur] at hc'
      cases hc'
    · exact hp c' (hcurne c' hcc ▸ hc')
  · rw [hproc] at hf
    have hu := h.child p p' f hf hp'
    rw [hne p' fun he => hused (he ▸ hu)]
    exact hu
  · simp only [hproc]
    exact h.alone

theorem switchBack (h : Inv A s) (hcur : s.cur c = none) (i : Nat) (hl : Holding t c [])
    (hother : ∀ c' l', c' ≠ c → Holding s c' l' → Holding t c' l') (tcur : t.cur = s.cur)
    (tcproc : t.cproc = update s.cproc c none) (tproc : t.proc = s.proc)
    (tstack : t.stack = update s.stack (.sched c) [.scheduler (.scan (.next i))]) :
    Inv A t := by
  have hthread : t.thread = s.thread := by
    funext c'
    simp only [Sys.thread, tcur]
  obtain ⟨hmine, hstack⟩ := eq_update_iff.mp tstack
  obtain ⟨hcp, hcpne⟩ := eq_update_iff.mp tcproc
  have hproc : ∀ p, t.stack (.proc p) = s.stack (.proc p) := fun p => hstack _ (by simp)
  have hstays : ∀ c' p, t.cproc c' = some p → s.cproc c' = some p := fun c' p hp => by
    have hcc : c' ≠ c := fun he => by simp [he, hcp] at hp
    exact hcpne c' hcc ▸ hp
  refine ⟨fun c' => ?_, fun c' => ?_, fun c' p hp => ?_, fun c' c'' p hp hp' => ?_, fun c' p hp => ?_,
    fun c' p hp => ?_, fun p hp => ?_, fun p p' f hf hp' => ?_, ?_⟩
  · rw [hthread, tcur]
    by_cases hcc : c' = c
    · rw [hcc, thread_none hcur, hmine, hcur]
      exact ⟨[], hl, rfl, rfl⟩
    · obtain ⟨l', hl', hfit'⟩ := h.cpu c'
      rw [hstack _ (thread_none hcur ▸ h.thread_ne hcc)]
      exact ⟨l', hother c' l' hcc hl', hfit'⟩
  · by_cases hcc : c' = c
    · rw [hcc, hcp, hmine]
      rfl
    · rw [hcpne c' hcc, h.ran c', hstack _ (by simpa using hcc)]
  · rw [tcur] at hp
    have hcc : c' ≠ c := fun he => by simp [he, hcur] at hp
    rw [hcpne c' hcc]
    exact h.cur c' p hp
  · exact h.once c' c'' p (hstays c' p hp) (hstays c'' p hp')
  · rw [tproc]
    exact h.live c' p (hstays c' p hp)
  · rw [tproc, hproc]
    exact h.active c' p (tcur ▸ hp)
  · rw [tproc, hproc]
    exact h.parked p (tcur ▸ hp)
  · rw [tproc]
    exact h.child p p' f (hproc p ▸ hf) hp'
  · simp only [hproc]
    exact h.alone

end Inv

end Xv6.Threads
