import Xv6.ThreadSteps

namespace Xv6.Threads

open Function

variable {n : Nat} {κ Λ γ L D X : Type} [DecidableEq κ] [DecidableEq Λ]
  {A : L → List (Lock n Λ) → Prop} {s t : Sys n κ Λ γ L D} {c : κ} {l : List (Lock n Λ)}
  {f : Frame n Λ γ L} {rest stk : List (Frame n Λ γ L)} {p q : Fin n} {x : Proc n γ}

section Processes

variable (h : Inv A s) (hcur : s.cur c = some p)
include h hcur

omit [DecidableEq κ] [DecidableEq Λ] in
theorem Inv.fits (hstk : s.stack (s.thread c) = f :: rest) :
    ∃ l, Holding s c l ∧ Fits A (some p) l (f :: rest) := by
  obtain ⟨l, hl, hfit⟩ := h.cpu c
  rw [hstk, hcur] at hfit
  exact ⟨l, hl, hfit⟩

omit [DecidableEq κ] [DecidableEq Λ] in
theorem Inv.setSelf (hx : x.state = (s.proc p).state) : Inv A (s.setProc p x) :=
  h.setProc (fun _ _ => hx) (fun c hc => hx ▸ h.live c p hc) (fun hoff => absurd hcur (hoff c))
    (fun hu => hx.trans hu)

omit [DecidableEq Λ] in
theorem After.sched (hl : Holding s c [.proc p])
    (hx : x.state = .runnable ∨ x.state = .sleeping ∨ x.state = .zombie) (hpark : ParkedAs A p x stk)
    (hchild : ∀ f ∈ stk, ∀ q, f.child = some q → ∃ f' ∈ s.stack (.proc p), f'.child = some q) :
    After A s c ((s.setProc p x).sched c p stk) := by
  have hlock : s.lock (.proc p) = some c := (hl.mem _).mpr List.mem_cons_self
  have hnoff : s.noff c = 1 := hl.noff
  have hrun : ((s.setProc p x).proc p).state ≠ .running := by
    rw [show (s.setProc p x).proc p = x from update_self ..]
    rcases hx with hx | hx | hx <;> simp [hx]
  have hgo : (s.setProc p x).sched c p stk = { (s.setProc p x).goto c stk with
      cur := update s.cur c none } := by
    rw [Sys.sched, if_neg (by simpa [Sys.setProc] using hlock),
      if_neg (by simpa [Sys.setProc] using hnoff), if_neg hrun]
    rfl
  have hthread : (s.setProc p x).thread c = .proc p := thread_some hcur
  have hstack : ((s.setProc p x).goto c stk).stack = update s.stack (.proc p) stk := by
    simp only [Sys.goto, hthread]
    rfl
  rw [hgo]
  refine ⟨h.switchOut hcur hl ?_ hpark hchild rfl rfl rfl hstack rfl rfl,
    fun c' hc' => update_of_ne hc' .., fun _ _ => rfl, fun _ hp _ => hp, fun q hq => ?_,
    fun _ _ _ => .rfl, fun _ hm => .inl hm⟩
  rotate_left
  · simp at hq
  rcases hx with hx | hx | hx <;> simp [hx]

theorem After.yieldStep {a : YieldAt} (hstk : s.stack (s.thread c) = .yield a :: rest)
    (ht : yieldStep s c p rest a = some t) : After A s c t := by
  obtain ⟨l, hl, hlocks, hran, hexit, hrest⟩ := h.fits hcur hstk
  cases a with
  | acquire =>
    cases hlocks
    exact .acquire h hcur hl ht ⟨rfl, hran, hexit, hrest⟩ (.top hstk rfl rfl (by simp [Frame.child]))
  | sched =>
    cases hlocks
    cases ht
    refine .sched h hcur hl (.inl rfl) ⟨_, rest, rfl, rfl, rfl, hran, hexit, hrest⟩ fun f hf q hq => ?_
    rcases List.mem_cons.mp hf with rfl | hf
    · simp [Frame.child] at hq
    · exact ⟨f, thread_some hcur ▸ hstk ▸ List.mem_cons_of_mem _ hf, hq⟩
  | release =>
    cases hlocks
    cases ht
    refine .release h hcur hl ?_ (.ret hstk rfl hran hexit)
    rw [YieldAt.locks, List.erase_cons_head]
    exact hrest.2

theorem After.sleepStep {ch : Chan n γ} {lk : Lock n Λ} {a : SleepAt}
    (hstk : s.stack (s.thread c) = .sleep ch lk a :: rest)
    (ht : sleepStep s c p rest ch lk a = some t) : After A s c t := by
  obtain ⟨l, hl, hlocks, hran, hexit, hrest⟩ := h.fits hcur hstk
  cases a with
  | acquire =>
    cases hlocks
    exact .acquire h hcur hl ht ⟨rfl, hran, hexit, hrest⟩ (.top hstk rfl rfl (by simp [Frame.child]))
  | release =>
    cases hlocks
    cases ht
    refine .release h hcur hl ?_ (.top hstk rfl rfl (by simp [Frame.child]))
    have hne : Lock.proc p ≠ lk := by
      have := hl.nodup
      simpa [SleepAt.locks] using this
    rw [SleepAt.locks, List.erase_cons_tail (by simpa using hne), List.erase_cons_head]
    exact ⟨rfl, hran, hexit, hrest⟩
  | sched =>
    cases hlocks
    cases ht
    refine .sched h hcur hl (.inr (.inl rfl)) ⟨ch, lk, rest, rfl, rfl, rfl, hran, hexit, hrest⟩
      fun f hf q hq => ?_
    rcases List.mem_cons.mp hf with rfl | hf
    · simp [Frame.child] at hq
    · exact ⟨f, thread_some hcur ▸ hstk ▸ List.mem_cons_of_mem _ hf, hq⟩
  | tidy =>
    cases hlocks
    cases ht
    refine .setProc_release (h.setSelf hcur rfl) hcur hl ?_ (.top hstk rfl rfl (by simp [Frame.child]))
    rw [SleepAt.locks, List.erase_cons_head]
    exact ⟨rfl, hran, hexit, hrest⟩
  | reacquire =>
    cases hlocks
    exact .acquire h hcur hl ht hrest.2 (.ret hstk rfl hran hexit)

theorem After.setkilledStep {b : Bool} (hstk : s.stack (s.thread c) = .setkilled b :: rest)
    (ht : setkilledStep s c p rest b = some t) : After A s c t := by
  obtain ⟨l, hl, hlocks, rfl⟩ := h.fits hcur hstk
  cases b with
  | false =>
    cases hlocks
    exact .acquire h hcur hl ht ⟨rfl, rfl⟩ (.top hstk rfl rfl (by simp [Frame.child]))
  | true =>
    cases hlocks
    cases ht
    refine .setProc_release_log (h.setSelf hcur rfl) hcur hl ?_ (.ret hstk rfl rfl rfl)
    rw [if_pos rfl, List.erase_cons_head]
    exact ⟨rfl, rfl⟩

theorem After.forkret (hstk : s.stack (s.thread c) = .forkret :: rest) :
    After A s c (s.release c (.proc p) fun s => s.goto c rest) := by
  obtain ⟨l, hl, hlocks, rfl⟩ := h.fits hcur hstk
  cases hlocks
  refine .release h hcur hl ?_ (.ret hstk rfl rfl rfl)
  rw [List.erase_cons_head]
  exact ⟨rfl, rfl⟩

theorem After.kkillStep {pid : Int} {a : ScanAt n} (hstk : s.stack (s.thread c) = .kkill pid a :: rest)
    (ht : kkillStep s c rest pid a = some t) : After A s c t := by
  obtain ⟨l, hl, hlocks, rfl⟩ := h.fits hcur hstk
  cases hlocks
  cases a with
  | next i =>
    rw [Threads.kkillStep] at ht
    split_ifs at ht with hi
    · exact .acquire h hcur hl ht ⟨rfl, rfl⟩ (.top hstk rfl rfl (by simp [Frame.child]))
    · cases ht
      exact .goto h hcur hl ⟨rfl, rfl⟩ (.ret hstk rfl rfl rfl)
  | locked q =>
    rw [Threads.kkillStep] at ht
    split_ifs at ht with hpid
    · cases ht
      refine .setProc_release_log ?_ hcur hl ?_ (.ret hstk rfl rfl rfl)
      · by_cases hs : (s.proc q).state = .sleeping
        · exact h.setProc_woken hs (if_pos hs)
        · exact h.setProc_same (if_neg hs) rfl
      · rw [ScanAt.locks, List.erase_cons_head]
        exact ⟨rfl, rfl⟩
    · cases ht
      refine .release h hcur hl ?_ (.top hstk rfl rfl (by simp [Frame.child]))
      rw [ScanAt.locks, List.erase_cons_head]
      exact ⟨rfl, rfl⟩

end Processes

theorem After.wakeupStep [DecidableEq γ] (h : Inv A s) {ch : Option (Chan n γ)} {a : ScanAt n}
    (hstk : s.stack (s.thread c) = .wakeup ch a :: rest)
    (ht : wakeupStep s c rest ch a = some t) : After A s c t := by
  obtain ⟨l, hl, hfit⟩ := h.cpu c
  rw [hstk] at hfit
  obtain ⟨hhead, hran, hexit, hrest⟩ := hfit
  cases a with
  | next i =>
    rw [Threads.wakeupStep] at ht
    split_ifs at ht with hi hself
    · cases ht
      exact .goto h rfl hl ⟨trivial, hran, hexit, hrest⟩ (.top hstk rfl rfl (by simp [Frame.child]))
    · exact .acquire h rfl hl ht ⟨rfl, hran, hexit, hrest⟩
        (.top hstk rfl rfl (by simp [Frame.child]))
    · cases ht
      exact .goto h rfl hl hrest.2 (.ret hstk rfl hran hexit)
  | locked q =>
    cases ht
    obtain ⟨l', rfl⟩ : ∃ l', l = .proc q :: l' := by
      cases l with
      | nil => cases hhead
      | cons k l' =>
        cases hhead
        exact ⟨l', rfl⟩
    refine .setProc_release ?_ rfl hl ?_ (.top hstk rfl rfl (by simp [Frame.child]))
    · unfold wake
      split_ifs with hs
      · exact h.setProc_woken hs.1 rfl
      · exact h.setProc_same rfl rfl
    · rw [List.erase_cons_head]
      exact ⟨trivial, hran, hexit, hrest⟩

end Xv6.Threads
