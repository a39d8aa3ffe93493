import Xv6.WaitInvariant
import Xv6.ExitStatus

namespace Xv6.Threads

open Xv6.Lib Function

variable {n : Nat} {κ Λ γ L D X : Type} [DecidableEq κ] [DecidableEq Λ] [DecidableEq γ]

/-- `kwait` of process `p` comes to return `r`. -/
def WaitReturns (s t : Sys n κ Λ γ L D) (op : Op L X) (p : Fin n) (addr : Nat) (r : Int) : Prop :=
  (∃ q, ZombieChild s.proc p q ∧ r = (s.proc q).pid ∧
    t.events = .waited (s.proc p).pid (s.proc q).pid (s.proc q).xstate :: s.events) ∨
  r = -1 ∧ t.proc = s.proc ∧ t.events = s.events ∧
    ((∀ q, (s.proc q).parent ≠ some p) ∨ (s.proc p).killed = true ∨
      op = .go false ∧ addr ≠ 0 ∧ ∃ q, ZombieChild s.proc p q)

/-- What `kexit` and `kwait` guarantee in a state. -/
structure WaitOk (code : L → Instr Λ γ L D X) (s : Sys n κ Λ γ L D) : Prop where
  exits : (s.events.filterMap Event.exitedPid).Nodup
  once : (s.events.filterMap Event.waitedPid).Nodup
  status : ∀ parent pid st, .waited parent pid st ∈ s.events → .exited pid st ∈ s.events
  exited : ∀ a t pid st, SleepsAlone code s a → step code s a = some t →
    t.events = .exited pid st :: s.events →
    ∃ p rest, s.cur a.1 = some p ∧ (s.proc p).pid = pid ∧ s.stack (.proc p) = .kexit st .zombie :: rest
  waited : ∀ a t parent pid st, SleepsAlone code s a → step code s a = some t →
    t.events = .waited parent pid st :: s.events →
    ∃ p q addr rest, s.cur a.1 = some p ∧ (s.proc p).pid = parent ∧ ZombieChild s.proc p q ∧
      (s.proc q).pid = pid ∧ (s.proc q).xstate = st ∧
      t.stack (.proc p) = .kwait addr (.done pid) :: rest
  returns : ∀ a t p addr r rest, SleepsAlone code s a → step code s a = some t → s.cur a.1 = some p →
    t.stack (.proc p) = .kwait addr (.done r) :: rest → s.stack (.proc p) ≠ t.stack (.proc p) →
    WaitReturns s t a.2 p addr r
  kept : ∀ a t q, SleepsAlone code s a → step code s a = some t → (s.proc q).state = .zombie →
    ((t.proc q).state = .zombie ∧ (t.proc q).pid = (s.proc q).pid ∧
      (t.proc q).xstate = (s.proc q).xstate ∧
      ((t.proc q).parent = (s.proc q).parent ∨ (t.proc q).parent = some s.initproc)) ∨
    ∃ parent, t.events = .waited parent (s.proc q).pid (s.proc q).xstate :: s.events
  parent : ∀ q p, (s.proc q).parent = some p → (s.proc p).state.live = true
  asleep : s.lock .wait = none → ∀ p f addr b rest, (s.proc p).state = .sleeping →
    s.stack (.proc p) = f :: .kwait addr b :: rest → ∀ q, ¬ ZombieChild s.proc p q

variable {A : L → List (Lock n Λ) → Prop} {s t : Sys n κ Λ γ L D} {c : κ} {p q : Fin n}
  {rest : List (Frame n Λ γ L)}

omit [DecidableEq γ] in
theorem kwaitStep_done {ok : Bool} {addr addr' : Nat} {b : WaitAt n} {r : Int}
    {rest' : List (Frame n Λ γ L)} (h : Inv A s) (hcur : s.cur c = some p)
    (hstk : s.stack (s.thread c) = .kwait addr b :: rest) (hk : b.Knows s.proc p)
    (ht : kwaitStep s c p rest ok addr b = some t)
    (hnew : t.stack (s.thread c) = .kwait addr' (.done r) :: rest')
    (hne : s.stack (s.thread c) ≠ t.stack (s.thread c)) :
    WaitReturns s t (.go ok : Op L X) p addr' r := by
  obtain ⟨l, hl, hlocks, hrest⟩ := h.fits hcur hstk
  cases hlocks
  cases hrest
  have hacquire : ∀ k x, (∀ r, x ≠ .done r) →
      s.acquire c k (fun s => s.goto c (.kwait addr x :: [.user])) ≠ some t := by
    intro k x hx ht
    unfold Sys.acquire at ht
    split_ifs at ht
    · cases ht
      exact hne rfl
    · cases ht
      cases goto_stack.symm.trans hnew
      exact hx r rfl
  have hrelease : ∀ k x, t = s.release c k (fun s => s.goto c x) → s.lock k = some c →
      t = (s.drop c k).goto c x := fun k x he hlock => he.trans (if_pos hlock)
  cases b with
  | lock => exact absurd ht (hacquire _ _ fun _ => by simp)
  | scan i havekids =>
    rw [kwaitStep] at ht
    split_ifs at ht with hi hp hh
    · exact absurd ht (hacquire _ _ fun _ => by simp)
    · cases ht
      cases goto_stack.symm.trans hnew
    · exact absurd ht (hacquire _ _ fun _ => by simp)
    · cases ht
      cases goto_stack.symm.trans hnew
      refine .inr ⟨rfl, rfl, rfl, .inl fun q => ?_⟩
      exact hk.2 (by simpa using hh) q (Nat.lt_of_lt_of_le q.isLt (Nat.le_of_not_lt hi))
  | locked q =>
    have hlock : s.lock (.proc q) = some c := (hl.mem _).mpr List.mem_cons_self
    rw [kwaitStep] at ht
    split_ifs at ht with hz hcopy
    · cases hrelease _ _ (Option.some.inj ht).symm hlock
      cases goto_stack.symm.trans hnew
      exact .inr ⟨rfl, rfl, rfl, .inr (.inr ⟨by rw [hcopy.2], hcopy.1, q, hk.1, hz⟩)⟩
    · rw [Sys.release, if_pos (show (s.setProc q {}).lock (.proc q) = some c from hlock)] at ht
      cases ht
      cases (update_self ..).symm.trans hnew
      exact .inl ⟨q, ⟨hk.1, hz⟩, rfl, rfl⟩
    · cases hrelease _ _ (Option.some.inj ht).symm hlock
      cases goto_stack.symm.trans hnew
  | killed =>
    have hlock : s.lock (.proc p) = some c := (hl.mem _).mpr List.mem_cons_self
    rw [kwaitStep, Sys.release, if_pos hlock] at ht
    cases ht
    have htop := goto_stack.symm.trans hnew
    split_ifs at htop with hkilled
    · cases htop
      exact .inr ⟨rfl, rfl, rfl, .inr (.inl hkilled)⟩
    · cases htop
  | done r' =>
    have hlock : s.lock .wait = some c := (hl.mem _).mpr List.mem_cons_self
    cases hrelease _ _ (Option.some.inj ht).symm hlock
    cases goto_stack.symm.trans hnew

section Changes

omit [DecidableEq κ] [DecidableEq Λ] [DecidableEq γ]

variable {e : Event}

theorem Sets.event {x : Proc n γ} {es : List Event} (hs : Sets s t q x es)
    (he : t.events = e :: s.events) : es = [e] :=
  List.append_cancel_right (show es ++ s.events = [e] ++ s.events from hs.events.symm.trans he)

theorem Change.event (hch : Change s c t) (he : t.events = e :: s.events) : e.aside = true ∨
    (∃ p status rest, e = .exited (s.proc p).pid status ∧ s.cur c = some p ∧
      s.stack (s.thread c) = .kexit status .zombie :: rest) ∨
    ∃ p q addr rest, e = .waited (s.proc p).pid (s.proc q).pid (s.proc q).xstate ∧ s.cur c = some p ∧
      s.stack (s.thread c) = .kwait addr (.locked q) :: rest ∧ (s.proc q).state = .zombie ∧
      t.stack (s.thread c) = .kwait addr (.done (s.proc q).pid) :: rest := by
  cases hch with
  | same _ hs _ => simp [hs] at he
  | run q x _ _ _ _ hs | sleep p ch lk rest _ _ hs | abort q rest _ hs | parent p q rest _ _ hs
  | reparent p q status rest _ _ _ hs _ _ => cases hs.event he
  | kill q pid rest _ _ hs | setkilled p _ hs =>
    cases hs.event he
    exact .inl rfl
  | alloc q rest _ _ _ hs _ =>
    cases hs.symm.trans he
    exact .inl rfl
  | zombie p status rest hcur hstk hs =>
    cases hs.event he
    exact .inr (.inl ⟨p, status, rest, rfl, hcur, hstk⟩)
  | reap p q addr rest hcur hstk hz hs hnew =>
    cases hs.event he
    exact .inr (.inr ⟨p, q, addr, rest, rfl, hcur, hstk, hz, hnew⟩)

theorem Change.kept (h : Inv A s) (hch : Change s c t) (hz : (s.proc q).state = .zombie) :
    ((t.proc q).state = .zombie ∧ (t.proc q).pid = (s.proc q).pid ∧
      (t.proc q).xstate = (s.proc q).xstate ∧
      ((t.proc q).parent = (s.proc q).parent ∨ (t.proc q).parent = some s.initproc)) ∨
    ∃ parent, t.events = .waited parent (s.proc q).pid (s.proc q).xstate :: s.events := by
  have hsame : t.proc q = s.proc q → (t.proc q).state = .zombie ∧ (t.proc q).pid = (s.proc q).pid ∧
      (t.proc q).xstate = (s.proc q).xstate ∧
      ((t.proc q).parent = (s.proc q).parent ∨ (t.proc q).parent = some s.initproc) := fun he => by
    rw [he]
    exact ⟨hz, rfl, rfl, .inl rfl⟩
  have hset : ∀ r x es, Sets s t r x es → (s.proc r).state ≠ .zombie → t.proc q = s.proc q :=
    fun r x es hs hr => hs.of_ne fun he => hr (he ▸ hz)
  have hrun : ∀ p f rest, s.cur c = some p → s.stack (s.thread c) = f :: rest → f.plain = true →
      (s.proc p).state ≠ .zombie := fun p f rest hcur hstk hf => by
    simp [h.state_running hcur hstk hf]
  cases hch with
  | same hp _ _ => exact .inl (hsame (by rw [hp]))
  | run r x _ _ _ hr hs => exact .inl (hsame (hset r x _ hs hr))
  | sleep p ch lk rest hcur hstk hs => exact .inl (hsame (hset p _ _ hs (hrun p _ _ hcur hstk rfl)))
  | kill r pid rest _ _ hs =>
    by_cases hq : q = r
    · rw [hq] at hz ⊢
      rw [hs.self]
      exact .inl ⟨by simp [Threads.kill, hz], rfl, rfl, .inl rfl⟩
    · exact .inl (hsame (hs.of_ne hq))
  | setkilled p _ hs =>
    by_cases hq : q = p
    · rw [hq] at hz ⊢
      rw [hs.self]
      exact .inl ⟨hz, rfl, rfl, .inl rfl⟩
    · exact .inl (hsame (hs.of_ne hq))
  | alloc r rest _ hu hp _ _ =>
    have hq : q ≠ r := fun he => by
      rw [he, hu] at hz
      cases hz
    exact .inl (hsame (by rw [hp, update_of_ne hq]))
  | abort r rest hstk hs =>
    refine .inl (hsame (hset r _ _ hs fun hr => ?_))
    cases hcur : s.cur c with
    | none =>
      obtain ⟨l, -, hfit⟩ := h.cpu c
      rw [hstk, hcur] at hfit
      exact hfit.1
    | some p =>
      have hu := h.child p r _ (thread_some hcur ▸ hstk ▸ List.mem_cons_self) rfl
      simp [hu] at hr
  | parent p r rest hcur hstk hs =>
    have hu := h.child p r _ (thread_some hcur ▸ hstk ▸ List.mem_cons_self) rfl
    exact .inl (hsame (hset r _ _ hs (by simp [hu])))
  | reparent p r status rest _ _ _ hs _ _ =>
    by_cases hq : q = r
    · rw [hq] at hz ⊢
      rw [hs.self]
      exact .inl ⟨hz, rfl, rfl, .inr rfl⟩
    · exact .inl (hsame (hs.of_ne hq))
  | zombie p status rest hcur hstk hs =>
    exact .inl (hsame (hset p _ _ hs (hrun p _ _ hcur hstk rfl)))
  | reap p r addr rest _ _ _ hs _ =>
    by_cases hq : q = r
    · rw [hq]
      exact .inr ⟨_, hs.events⟩
    · exact .inl (hsame (hs.of_ne hq))

theorem WaitInv.not_asleep (h : Inv A s) (hw : WaitInv s) (hfree : s.lock .wait = none)
    {f : Frame n Λ γ L} {addr : Nat} {b : WaitAt n} (hs : (s.proc p).state = .sleeping)
    (hstk : s.stack (.proc p) = f :: .kwait addr b :: rest) : ¬ ZombieChild s.proc p q := by
  intro hz
  have hpark := h.parked p (h.not_current (by simp [hs]) (by simp [hs]))
  rw [ParkedAs, hs] at hpark
  obtain ⟨ch, lk, r, hr, hch, hfit⟩ := hpark
  cases hstk.symm.trans hr
  rw [hstk] at hfit
  obtain ⟨-, -, -, hover, -⟩ := hfit
  have hself : ch = .proc p := by
    simp only [Frame.Over] at hover
    split at hover
    · next heq => cases heq
    · obtain ⟨_, hp, hc, -⟩ := hover
      cases hp
      exact hc
    · exact hover.elim
  obtain ⟨c, a, r, hwake, hrest⟩ := hw.asleep p q hz (.inl ⟨hs, hself ▸ hch⟩)
  rw [hrest.locked h hwake] at hfree
  cases hfree

end Changes

variable {code : L → Instr Λ γ L D X} {a : κ × Op L X}

theorem WaitInv.returns {addr : Nat} {r : Int} (h : Inv A s) (hw : WaitInv s)
    (ht : Threads.step code s a = some t) (hcur : s.cur a.1 = some p)
    (hnew : t.stack (.proc p) = .kwait addr (.done r) :: rest)
    (hne : s.stack (.proc p) ≠ t.stack (.proc p)) : WaitReturns s t a.2 p addr r := by
  rw [← thread_some hcur] at hnew hne
  rcases step_cases ht with ⟨ok, f, r', hop, hstk, hgo⟩ | ⟨v, x, r', -, hstk, hacc⟩ | hent
  · obtain ⟨l, hl, hfit⟩ := h.fits hcur hstk
    obtain ⟨b, r'', hr⟩ := (hnew ▸ (Effect.goStep h hstk hgo).flow).kwait_top (hstk ▸ hfit)
    cases hstk.symm.trans hr
    have hk := hw.known a.1 p hcur
    rw [Known, ← thread_some hcur, hstk] at hk
    simp only [goStep, h.cur _ p hcur, procStep] at hgo
    rw [hop]
    exact kwaitStep_done h hcur hstk hk hgo hnew hne
  · obtain ⟨f, -, rfl⟩ := accessStep_cases hacc
    cases (update_self ..).symm.trans hnew
  · rcases enterStep_cases hent with rfl | ⟨f, hf, -, rfl⟩
    · exact absurd rfl hne
    · cases goto_stack.symm.trans hnew
      cases hop : a.2 <;> rw [hop] at hf <;> cases hf

theorem WaitInv.waitOk (hi : Inv (fun _ _ => True) s) (hw : WaitInv s) (he : ExitInv s) :
    WaitOk code s := by
  refine ⟨he.exitedOnce, he.waitedOnce, fun parent pid st hm => (he.waited parent pid st hm).1,
    fun a t pid st _ ht hev => ?_, fun a t parent pid st _ ht hev => ?_,
    fun a t p addr r rest _ ht hcur => hw.returns hi ht hcur,
    fun a t q _ ht => (hi.outcome ht).change.kept hi, hw.child,
    fun hfree p f addr b rest hs hstk q => hw.not_asleep hi hfree hs hstk⟩
  · rcases (hi.outcome ht).change.event hev with hf | ⟨p, status, rest, heq, hcur, hstk⟩ |
      ⟨p, q, addr, rest, heq, -⟩
    · cases hf
    · cases heq
      exact ⟨p, rest, hcur, rfl, thread_some hcur ▸ hstk⟩
    · cases heq
  · rcases (hi.outcome ht).change.event hev with hf | ⟨p, status, rest, heq, -⟩ |
      ⟨p, q, addr, rest, heq, hcur, hstk, hz, hnew⟩
    · cases hf
    · cases heq
    · cases heq
      have hk := hw.known a.1 p hcur
      rw [Known, ← thread_some hcur, hstk] at hk
      exact ⟨p, q, addr, rest, hcur, rfl, ⟨hk.1, hz⟩, rfl, rfl, thread_some hcur ▸ hnew⟩

/-- Whatever the interleaving of `kfork`, `kexit` and `kwait` with each other and with the rest of the
kernel. -/
theorem exit_wait_agree {p : Fin n} {d : D} {as : List (κ × Op L X)}
    (hrun : Run (step code) (SleepsAlone code) (init p d) as s) : WaitOk code s := by
  have hinv : Inv (fun _ _ => True) s ∧ PidInv s ∧ ExitInv s ∧ WaitInv s := by
    refine hrun.invariant (I := fun s => Inv (fun _ _ => True) s ∧ PidInv s ∧ ExitInv s ∧ WaitInv s)
      (fun s a t hs hok ht => ?_) ⟨.init p d, .init p d, .init p d, .init p d⟩
    have hc := (hs.1.outcome ht).change
    have ha := hs.1.step .any hok (fun _ _ => trivial) ht
    exact ⟨ha.inv, hs.2.1.change hs.1 hc, hs.2.2.1.change hs.2.1 hs.1 hc, hs.2.2.2.step hs.1 ha ht⟩
  exact hinv.2.2.2.waitOk hinv.1 hinv.2.2.1

/-- The first process forks a child and waits; the child exits with status 7 and is returned. -/
def waitRun : List (Bool × Op Nat Unit) :=
  go false 3 ++ (false, .kfork) :: go false 9 ++ go true 5 ++ (false, .kwait 0) :: go false 10 ++
    (true, .kexit 7) :: go true 13 ++ go false 11

theorem exit_wait_agree_child : ∃ s : Sys 2 Bool Unit Unit Nat Unit,
    Run (step handshake) (SleepsAlone handshake) (init 0 ()) waitRun s ∧
      s.events = [.waited 1 2 7, .exited 2 7, .allocated 2, .allocated 1] ∧ WaitOk handshake s := by
  have hrun : ∃ s : Sys 2 Bool Unit Unit Nat Unit,
      Run (step handshake) (SleepsAlone handshake) (init 0 ()) waitRun s ∧
        s.events = [.waited 1 2 7, .exited 2 7, .allocated 2, .allocated 1] :=
    Run.exists_of_outcome (by decide +kernel)
  obtain ⟨s, hrun, hs⟩ := hrun
  exact ⟨s, hrun, hs, exit_wait_agree hrun⟩

end Xv6.Threads
