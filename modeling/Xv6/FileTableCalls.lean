import Xv6.FileTableRefs

namespace Xv6.Files

open Xv6.Inodes (nfile nofile ndev oWronly oRdwr FileType)
open Xv6.Lib Function

variable {ι : Type} {s t : State ι} {owed : Fin nfile → Int} {f : Fin nfile} {p : ι} {fd : Fin nofile}

/-- Between system calls: no references are held but those of descriptor slots, and a process that
does not exist has none. -/
structure Inv [Fintype ι] (s : State ι) : Prop where
  good : Good s 0
  dead : ∀ q, s.alive q = false → ∀ fd, s.ofile (q, fd) = none

structure Mine (p : ι) (s t : State ι) : Prop where
  others : ∀ q, q ≠ p → ∀ fd, t.ofile (q, fd) = s.ofile (q, fd)
  alive : t.alive = s.alive
  initproc : t.initproc = s.initproc

theorem Mine.refl (s : State ι) : Mine p s s := ⟨fun _ _ _ => rfl, rfl, rfl⟩

theorem Kept.mine (h : Kept s t) : Mine p s t := ⟨fun _ _ _ => by rw [h.ofile], h.alive, h.initproc⟩

theorem Mine.trans {u : State ι} (h : Mine p s t) (h' : Mine p t u) : Mine p s u :=
  ⟨fun q hq fd => (h'.others q hq fd).trans (h.others q hq fd), h'.alive.trans h.alive,
    h'.initproc.trans h.initproc⟩

theorem Mine.setFd [DecidableEq ι] (v : Option (Fin nfile)) :
    Mine p s { s with ofile := update s.ofile (p, fd) v } := by
  refine ⟨fun q hq fd' => update_of_ne ?_ .., rfl, rfl⟩
  exact fun he => hq (congrArg Prod.fst he)

theorem Inv.mine [Fintype ι] (h : Inv s) (hp : s.alive p = true) (hg : Good t 0) (hm : Mine p s t) : Inv t := by
  refine ⟨hg, fun q hq fd => ?_⟩
  rw [hm.alive] at hq
  have hqp : q ≠ p := by
    rintro rfl
    exact absurd (hq.symm.trans hp) Bool.false_ne_true
  rw [hm.others q hqp]
  exact h.dead q hq fd

theorem void_ensures {α : Type} {m : M ι α} {Q : State ι → Prop} {E : String → State ι → Prop}
    (h : Ensures m s (fun _ t => Q t) E) : Ensures (void m) s (fun _ t => Q t) E := by
  unfold void
  exact h.seq (fun _ _ ht => .pure ht)

theorem argfd_ensures {n : Int} : Completes (argfd p n) s (fun r t => t = s ∧ match r with
    | none => True
    | some (fd, f) => s.ofile (p, fd) = some f) := by
  unfold argfd
  apply Ensures.bind_get
  split
  · split
    · exact .pure ⟨rfl, trivial⟩
    · next f hf => exact .pure ⟨rfl, hf⟩
  · exact .pure ⟨rfl, trivial⟩

variable [Fintype ι]

theorem Good.setInode (h : Good s owed) {x : File} (hf : (s.file f).type = .none) (href : 0 < (s.file f).ref)
    (hx : x.ref = (s.file f).ref ∧ x.type ≠ .pipe) :
    Good { s with file := update s.file f x } owed := by
  refine ⟨fun g => ?_, fun g hg => ?_, h.ends.congr fun pg w g => ?_, h.pages.nodup, h.pages.apart,
    h.pages.freed⟩
  · have hg := h.counts g
    obtain rfl | hgf := eq_or_ne g f
    · simpa [hx.1] using hg
    · simpa [hgf] using hg
  · obtain rfl | hgf := eq_or_ne g f
    · simp only [update_self] at hg
      omega
    · simp only [update_of_ne hgf] at hg ⊢
      exact h.closed g hg
  · obtain rfl | hgf := eq_or_ne g f
    · simp [IsEnd, hx.2, hf]
    · simp [IsEnd, hgf]

/-- A booted system: no file is open and there is no pipe. -/
structure Fresh (s : State ι) : Prop where
  file : ∀ f, (s.file f).ref = 0 ∧ (s.file f).type = .none
  ofile : ∀ x, s.ofile x = none
  pipe : ∀ pg, s.pipe pg = none
  freelist : s.freelist.Nodup
  freed : ∀ pg, s.allocs pg = s.frees pg

theorem Fresh.inv (h : Fresh s) : Inv s := by
  refine ⟨⟨fun f => ?_, fun f _ => (h.file f).2, ⟨?_, ?_, ?_, ?_⟩, h.freelist, fun pg _ => h.pipe pg, fun pg => ?_⟩,
    fun q _ fd => h.ofile (q, fd)⟩
  · have hz : refs s.ofile f = 0 := (total_eq_zero _ _).mpr (fun x => by simp [h.ofile x])
    rw [(h.file f).1, hz]
    rfl
  · intro pg w f hf
    rw [IsEnd, (h.file f).2] at hf
    cases hf.1
  · intro pg pi w hpi
    rw [h.pipe pg] at hpi
    cases hpi
  · intro pg w f g hf
    rw [IsEnd, (h.file f).2] at hf
    cases hf.1
  · intro pg pi hpi
    rw [h.pipe pg] at hpi
    cases hpi
  · simp [h.pipe pg, h.freed pg]

variable [DecidableEq ι]

theorem fdalloc_ensures (h : Good s owed) : Completes (fdalloc p f) s (fun r t => match r with
    | none => t = s
    | some fd => s.ofile (p, fd) = none ∧ Good t (owed - one f) ∧
        t = { s with ofile := update s.ofile (p, fd) (some f) }) := by
  unfold fdalloc
  apply Ensures.bind_get
  split
  · exact .pure rfl
  · next fd hfd =>
    have hnone : s.ofile (p, fd) = none := by simpa using List.find?_some hfd
    refine (setFd_some_ensures h hnone).seq ?_
    intro _ t ht
    exact .pure ⟨hnone, ht⟩

theorem sysDup_ensures (h : Good s 0) {n : Int} :
    Completes (sysDup p n) s (fun _ t => Good t 0 ∧ Mine p s t) := by
  unfold sysDup
  refine argfd_ensures.seq ?_
  rintro r _ ⟨rfl, hr⟩
  cases r with
  | none => exact .pure ⟨h, Mine.refl _⟩
  | some x =>
    obtain ⟨fd, f⟩ := x
    refine (fdalloc_ensures h).seq ?_
    intro r t ht
    cases r with
    | none =>
      subst ht
      exact .pure ⟨h, Mine.refl _⟩
    | some new =>
      obtain ⟨-, hg, rfl⟩ := ht
      refine (filedup_ensures hg (h.pos_of_slot hr)).seq ?_
      rintro _ u ⟨hu, rfl⟩
      rw [zero_sub, neg_add_cancel] at hu
      exact .pure ⟨hu, (Mine.setFd _).trans ⟨fun _ _ _ => rfl, rfl, rfl⟩⟩

theorem sysClose_ensures (h : Good s 0) {n : Int} :
    Completes (sysClose p n) s (fun _ t => Good t 0 ∧ Mine p s t) := by
  unfold sysClose
  refine argfd_ensures.seq ?_
  rintro r _ ⟨rfl, hr⟩
  cases r with
  | none => exact .pure ⟨h, Mine.refl _⟩
  | some x =>
    obtain ⟨fd, f⟩ := x
    refine (setFd_none_ensures h hr).seq ?_
    rintro _ t ⟨hg, rfl⟩
    rw [zero_add] at hg
    refine (fileclose_ensures hg (h.pos_of_slot hr)).seq ?_
    intro _ u ⟨hu, hk⟩
    rw [sub_self] at hu
    exact .pure ⟨hu, (Mine.setFd _).trans hk.mine⟩

theorem sysOpen_ensures (h : Good s 0) {found : Option Found} {omode : Nat} :
    Completes (sysOpen p found omode) s (fun _ t => Good t 0 ∧ Mine p s t) := by
  unfold sysOpen
  split
  · exact .pure ⟨h, Mine.refl _⟩
  · next ip =>
    split
    · exact .pure ⟨h, Mine.refl _⟩
    · refine (filealloc_ensures h).seq ?_
      intro r t ht
      cases r with
      | none =>
        subst ht
        exact .pure ⟨h, Mine.refl _⟩
      | some f =>
        obtain ⟨hg, hz, ht⟩ := ht
        rw [zero_add] at hg
        have hk : Kept s t := ht ▸ ⟨rfl, rfl, rfl⟩
        have hfile : (t.file f).type = .none ∧ (t.file f).ref = 1 := by
          rw [ht]
          simpa using h.closed f hz
        refine (fdalloc_ensures hg).seq ?_
        intro r u hu
        cases r with
        | none =>
          subst hu
          refine (fileclose_ensures hg (by omega)).seq ?_
          intro _ u ⟨hu, hk'⟩
          rw [sub_self] at hu
          exact .pure ⟨hu, (hk.trans hk').mine⟩
        | some fd =>
          obtain ⟨-, hu, rfl⟩ := hu
          rw [sub_self] at hu
          apply Ensures.bind_modify
          refine .pure ⟨hu.setInode hfile.1 (show 0 < (t.file f).ref by omega) ⟨rfl, ?_⟩,
            (hk.mine.trans (Mine.setFd _)).trans ⟨fun _ _ _ => rfl, rfl, rfl⟩⟩
          simp only
          split <;> simp

theorem pipeUndo_ensures {rf wf : Fin nfile} {fd0 fd1 : Option (Fin nofile)}
    (h : Good s owed) (howed : owed + (if fd0.isSome then one rf else 0) + (if fd1.isSome then one wf else 0) =
      one rf + one wf) (h0 : ∀ fd ∈ fd0, s.ofile (p, fd) = some rf)
    (h1 : ∀ fd ∈ fd1, s.ofile (p, fd) = some wf) (hne : ∀ fd ∈ fd1, fd ∉ fd0) :
    Completes (pipeUndo p rf wf fd0 fd1) s (fun _ t => Good t 0 ∧ Mine p s t) := by
  unfold pipeUndo
  have hfirst : Completes (fd0.forM fun fd => setFd p fd none) s (fun _ t =>
      Good t (owed + if fd0.isSome then one rf else 0) ∧ Mine p s t ∧
        ∀ fd ∈ fd1, t.ofile (p, fd) = some wf) := by
    cases fd0 with
    | none => exact .pure ⟨by simpa using h, Mine.refl _, h1⟩
    | some fd =>
      refine (setFd_none_ensures h (h0 fd rfl)).post ?_
      rintro _ t ⟨ht, rfl⟩
      refine ⟨by simpa using ht, Mine.setFd _, fun fd' hfd' => ?_⟩
      refine (update_of_ne (fun he => ?_) ..).trans (h1 fd' hfd')
      exact hne fd' hfd' (congrArg some (congrArg Prod.snd he).symm)
  refine hfirst.seq ?_
  intro _ t ⟨ht, hm, h1⟩
  have hsecond : Completes (fd1.forM fun fd => setFd p fd none) t (fun _ u =>
      Good u (one rf + one wf) ∧ Mine p t u) := by
    rw [← howed]
    cases fd1 with
    | none => exact .pure ⟨by simpa using ht, Mine.refl _⟩
    | some fd =>
      refine (setFd_none_ensures ht (h1 fd rfl)).post ?_
      rintro _ u ⟨hu, rfl⟩
      exact ⟨by simpa using hu, Mine.setFd _⟩
  refine hsecond.seq ?_
  intro _ u ⟨hu, hm'⟩
  refine closeBoth_ensures hu ?_
  intro v hv hk
  exact .pure ⟨hv, (hm.trans hm').trans hk.mine⟩

theorem sysPipe_ensures (h : Good s 0) {copied : Bool} :
    Completes (sysPipe p copied) s (fun _ t => Good t 0 ∧ Mine p s t) := by
  unfold sysPipe
  refine (pipealloc_ensures h).seq ?_
  rintro r t ⟨hk, ht⟩
  cases r with
  | none => exact .pure ⟨ht, hk.mine⟩
  | some x =>
    obtain ⟨rf, wf⟩ := x
    have ht : Good t (one rf + one wf) := ht
    refine (fdalloc_ensures ht).seq ?_
    intro r u hu
    cases r with
    | none =>
      subst hu
      refine (pipeUndo_ensures ht (by simp) (by simp) (by simp) (by simp)).post ?_
      intro _ v ⟨hv, hm⟩
      exact ⟨hv, hk.mine.trans hm⟩
    | some fd0 =>
      obtain ⟨-, hu, rfl⟩ := hu
      rw [add_sub_cancel_left] at hu
      have hm0 : Mine p s { t with ofile := update t.ofile (p, fd0) (some rf) } :=
        hk.mine.trans (Mine.setFd _)
      refine (fdalloc_ensures hu).seq ?_
      intro r v hv
      cases r with
      | none =>
        subst hv
        refine (pipeUndo_ensures hu (by simp [add_comm]) ?_ (by simp) (by simp)).post ?_
        · rintro fd ⟨⟩
          exact update_self ..
        · intro _ v ⟨hv, hm⟩
          exact ⟨hv, hm0.trans hm⟩
      | some fd1 =>
        obtain ⟨hfree, hv, rfl⟩ := hv
        have hne : fd1 ≠ fd0 := by
          rintro rfl
          cases (update_self ..).symm.trans hfree
        rw [sub_self] at hv
        cases copied with
        | true => exact .pure ⟨hv, hm0.trans (Mine.setFd _)⟩
        | false =>
          refine (pipeUndo_ensures hv (by simp) ?_ ?_ ?_).post ?_
          · rintro fd ⟨⟩
            refine (update_of_ne (fun he => hne ?_) ..).trans (update_self ..)
            exact (congrArg Prod.snd he).symm
          · rintro fd ⟨⟩
            exact update_self ..
          · rintro fd ⟨⟩ hc
            exact hne (Option.some.inj hc).symm
          · intro _ w ⟨hw, hm⟩
            exact ⟨hw, (hm0.trans (Mine.setFd _)).trans hm⟩

theorem pre_notMem {pre post : List (Fin nofile)} (hl : List.finRange nofile = pre ++ fd :: post) :
    fd ∉ pre := by
  have hnd := List.nodup_finRange nofile
  rw [hl, List.nodup_append] at hnd
  exact fun hin => hnd.2.2 fd hin fd (by simp) rfl

theorem forkFile_ensures {np : ι} (h : Good s 0) (hnone : s.ofile (np, fd) = none) :
    Completes (forkFile p np fd) s (fun _ t => Good t 0 ∧ Mine np s t ∧
      ∀ fd', fd' ≠ fd → t.ofile (np, fd') = s.ofile (np, fd')) := by
  unfold forkFile
  apply Ensures.bind_get
  split
  · exact .pure ⟨h, Mine.refl _, fun _ _ => rfl⟩
  · next f hf =>
    refine (filedup_ensures h (h.pos_of_slot hf)).seq ?_
    rintro _ t ⟨hg, rfl⟩
    refine (setFd_some_ensures hg hnone).post ?_
    rintro _ u ⟨hu, rfl⟩
    rw [add_sub_cancel_right] at hu
    refine ⟨hu, ⟨(Mine.setFd _).others, rfl, rfl⟩, fun fd' hfd' => update_of_ne (fun he => hfd' ?_) ..⟩
    exact congrArg Prod.snd he

theorem kfork_ensures {np : Option ι} {copied : Bool} (h : Inv s) (hnp : ∀ q ∈ np, s.alive q = false) :
    Completes (kfork p np copied) s (fun _ t => Inv t) := by
  unfold kfork
  cases np with
  | none => exact .pure h
  | some q =>
    cases copied with
    | false => exact .pure h
    | true =>
      apply Ensures.bind
      have hloop := Ensures.forM_list (forkFile p q) (fun pre t => Good t 0 ∧ Mine q s t ∧
          ∀ fd, fd ∉ pre → t.ofile (q, fd) = none) (List.finRange nofile) (E := fun _ _ => False) (s := s) ?_
          ⟨h.good, Mine.refl _, fun fd _ => h.dead q (hnp q rfl) fd⟩
      · refine hloop.post ?_
        intro _ t ⟨hg, hm, _⟩
        apply Ensures.bind_modify
        refine .pure ⟨⟨hg.counts, hg.closed, hg.ends, hg.pages.nodup, hg.pages.apart, hg.pages.freed⟩, ?_⟩
        intro r hr fd
        have hrq : r ≠ q := by
          rintro rfl
          exact absurd ((update_self ..).symm.trans hr) (by decide)
        have hr' : s.alive r = false := by
          rw [← hm.alive]
          exact (update_of_ne hrq ..).symm.trans hr
        exact (hm.others r hrq fd).trans (h.dead r hr' fd)
      · intro pre fd post t hl ⟨hg, hm, hleft⟩
        refine (forkFile_ensures hg (hleft fd (pre_notMem hl))).post ?_
        intro _ u ⟨hu, hm', hkeep⟩
        refine ⟨hu, hm.trans hm', fun fd' hfd' => ?_⟩
        simp only [List.mem_append, List.mem_singleton, not_or] at hfd'
        rw [hkeep fd' hfd'.2]
        exact hleft fd' hfd'.1

theorem exitFile_ensures (h : Good s 0) :
    Completes (exitFile p fd) s (fun _ t => Good t 0 ∧ Mine p s t ∧ t.ofile (p, fd) = none ∧
      ∀ fd', s.ofile (p, fd') = none → t.ofile (p, fd') = none) := by
  unfold exitFile
  apply Ensures.bind_get
  split
  · next hf => exact .pure ⟨h, Mine.refl _, hf, fun _ hn => hn⟩
  · next f hf =>
    refine (fileclose_ensures h (h.pos_of_slot hf)).seq ?_
    intro _ t ⟨hg, hk⟩
    refine (setFd_none_ensures hg (by rw [hk.ofile, hf])).post ?_
    rintro _ u ⟨hu, rfl⟩
    rw [sub_add_cancel] at hu
    refine ⟨hu, hk.mine.trans (Mine.setFd _), update_self .., fun fd' hn => ?_⟩
    obtain rfl | hfd := eq_or_ne fd' fd
    · exact update_self ..
    · refine (update_of_ne (fun he => hfd (congrArg Prod.snd he)) ..).trans ?_
      rw [hk.ofile, hn]

theorem kexit_ensures (h : Inv s) : Ensures (kexit p) s (fun _ t => Inv t) (fun e _ => e = "init exiting") := by
  unfold kexit
  apply Ensures.bind_get
  split
  · exact .throw rfl
  · apply Ensures.bind
    have hloop := Ensures.forM_list (exitFile p) (fun pre t => Good t 0 ∧ Mine p s t ∧
        ∀ fd ∈ pre, t.ofile (p, fd) = none) (List.finRange nofile) (E := fun _ _ => False) (s := s) ?_
        ⟨h.good, Mine.refl _, by simp⟩
    · refine hloop.imp ?_ (fun _ _ hf => hf.elim)
      intro _ t ⟨hg, hm, hdone⟩
      apply Ensures.modify
      refine ⟨⟨hg.counts, hg.closed, hg.ends, hg.pages.nodup, hg.pages.apart, hg.pages.freed⟩, ?_⟩
      intro q hq fd
      obtain rfl | hqp := eq_or_ne q p
      · exact hdone fd (List.mem_finRange fd)
      · have hq' : s.alive q = false := by
          rw [← hm.alive]
          exact (update_of_ne hqp ..).symm.trans hq
        exact (hm.others q hqp fd).trans (h.dead q hq' fd)
    · intro pre fd post t hl ⟨hg, hm, hdone⟩
      refine (exitFile_ensures hg).post ?_
      intro _ u ⟨hu, hm', hnone, hkeep⟩
      refine ⟨hu, hm.trans hm', fun fd' hfd' => ?_⟩
      obtain hfd' | hfd' := List.mem_append.mp hfd'
      · exact hkeep fd' (hdone fd' hfd')
      · exact List.mem_singleton.mp hfd' ▸ hnone

theorem call_ensures {c : Call ι} (h : Inv s) (ha : Allowed s (.call p c)) :
    Ensures (call p c) s (fun _ t => Inv t) (fun e _ => e = "init exiting") := by
  have hmine : ∀ {α : Type} {m : M ι α}, s.alive p = true →
      Completes m s (fun _ t => Good t 0 ∧ Mine p s t) →
      Ensures (void m) s (fun _ t => Inv t) (fun e _ => e = "init exiting") := by
    intro α m hp hm
    exact void_ensures (hm.imp (fun _ _ ht => h.mine hp ht.1 ht.2) (fun _ _ hf => hf.elim))
  cases c with
  | «open» found omode => exact hmine ha (sysOpen_ensures h.good)
  | dup fd => exact hmine ha (sysDup_ensures h.good)
  | pipe copied => exact hmine ha (sysPipe_ensures h.good)
  | close fd => exact hmine ha (sysClose_ensures h.good)
  | fork np copied =>
    have hnp : ∀ q ∈ np, s.alive q = false := by
      rintro q ⟨⟩
      exact ha.2
    exact void_ensures ((kfork_ensures h hnp).imp (fun _ _ ht => ht) (fun _ _ hf => hf.elim))
  | exit => exact kexit_ensures h

theorem Inv.step {a : Act ι} (h : Inv s) (ha : Allowed s a) (hs : step s a = some t) : Inv t := by
  cases a with
  | call p c =>
    have hc := call_ensures h ha
    cases hr : call p c s with
    | ok u v =>
      simp only [Files.step, hr] at hs
      cases hs
      exact hc.ok hr
    | error e v => simp [Files.step, hr] at hs
  | pages l =>
    cases hs
    exact ⟨⟨h.good.counts, h.good.closed, h.good.ends, ha.1, ha.2, h.good.pages.freed⟩, h.dead⟩

structure FilesOk (s : State ι) : Prop where
  refs : ∀ f, (s.file f).ref = refs s.ofile f
  closed : ∀ f, (s.file f).ref = 0 → (s.file f).type = .none
  panics : ∀ p c e t, Allowed s (.call p c) → call p c s = .error e t → e = "init exiting"
  readopen : ∀ pg pi, s.pipe pg = some pi → (pi.readopen = true ↔ ∃ f, IsEnd s pg false f)
  writeopen : ∀ pg pi, s.pipe pg = some pi → (pi.writeopen = true ↔ ∃ f, IsEnd s pg true f)
  page : ∀ pg, (∃ pi, s.pipe pg = some pi) ↔ ∃ w f, IsEnd s pg w f
  freed : ∀ pg, s.allocs pg = s.frees pg + if (s.pipe pg).isSome then 1 else 0
  freelist : s.freelist.Nodup ∧ ∀ pg ∈ s.freelist, s.pipe pg = none

theorem Inv.filesOk (h : Inv s) : FilesOk s := by
  constructor
  · intro f
    have := h.good.counts f
    simp only [Pi.zero_apply] at this
    omega
  · exact h.good.closed
  · intro p c e t ha he
    exact (call_ensures h ha).error he
  · intro pg pi hpi
    exact h.good.ends.ends false hpi
  · intro pg pi hpi
    exact h.good.ends.ends true hpi
  · intro pg
    constructor
    · rintro ⟨pi, hpi⟩
      obtain ⟨w, hw⟩ := h.good.ends.used hpi
      obtain ⟨f, hf⟩ := (h.good.ends.ends w hpi).mp hw
      exact ⟨w, f, hf⟩
    · rintro ⟨w, f, hf⟩
      exact h.good.ends.live hf
  · exact h.good.pages.freed
  · exact ⟨h.good.pages.nodup, h.good.pages.apart⟩

/-- Files, descriptors, pipe ends and pipe pages agree after every call of every run. -/
theorem file_table_consistent {s₀ : State ι} {as : List (Act ι)} (h : Fresh s₀)
    (hr : Run step Allowed s₀ as s) : FilesOk s :=
  (hr.invariant (I := Inv) (fun _ _ _ hi ha hs => hi.step ha hs) h.inv).filesOk

/-- When the last descriptor is closed, no file is open, and every page that a pipe got has been freed. -/
theorem nothing_leaks {s₀ : State ι} {as : List (Act ι)} (h : Fresh s₀) (hr : Run step Allowed s₀ as s)
    (hclosed : ∀ x, s.ofile x = none) :
    (∀ f, (s.file f).type = .none) ∧ ∀ pg, s.pipe pg = none ∧ s.allocs pg = s.frees pg := by
  have hok := (hr.invariant (I := Inv) (fun _ _ _ hi ha hs => hi.step ha hs) h.inv).filesOk
  have hnone : ∀ f, (s.file f).type = .none := fun f =>
    hok.closed f ((hok.refs f).trans (by simp [refs, total, hclosed]))
  refine ⟨hnone, fun pg => ?_⟩
  have hpipe : s.pipe pg = none := by
    by_contra hne
    obtain ⟨w, f, hf⟩ := (hok.page pg).mp (Option.ne_none_iff_exists'.mp hne)
    cases (hnone f).symm.trans hf.1
  have hfreed := hok.freed pg
  rw [hpipe] at hfreed
  exact ⟨hpipe, hfreed⟩

def twoProcs : State (Fin 2) where
  file := fun _ => ⟨.none, 0, false, false, 0, 0, 0⟩
  ofile := fun _ => none
  alive := fun p => p = 0
  initproc := 0
  freelist := [7, 8]
  pipe := fun _ => none
  allocs := fun _ => 0
  frees := fun _ => 0

theorem twoProcs_fresh : Fresh twoProcs :=
  ⟨fun _ => ⟨rfl, rfl⟩, fun _ => rfl, fun _ => rfl, by decide, fun _ => rfl⟩

def pipeAndFork : List (Act (Fin 2)) :=
  [.call 0 (.pipe false), .call 0 (.pipe true), .call 0 (.open (some ⟨5, .file, 0⟩) 2), .call 0 (.dup 2),
    .call 0 (.fork (some 1) true), .call 0 (.close 0), .call 0 (.close 1), .call 1 (.close 1), .call 1 (.close 0),
    .call 0 (.pipe true), .call 0 (.close 2), .call 1 .exit]

theorem file_table_consistent_pipeAndFork : ∃ s : State (Fin 2), FilesOk s ∧ s.allocs 7 = 3 ∧ s.frees 7 = 2 ∧
    (s.file ⟨2, by decide⟩).ref = 1 := by
  have hrun : ∃ s : State (Fin 2), Run step Allowed twoProcs pipeAndFork s ∧ s.allocs 7 = 3 ∧ s.frees 7 = 2 ∧
    (s.file ⟨2, by decide⟩).ref = 1 := Run.exists_of_outcome (by decide +kernel)
  obtain ⟨s, hr, hs⟩ := hrun
  exact ⟨s, file_table_consistent twoProcs_fresh hr, hs⟩

theorem nothing_leaks_pipe : ∃ s : State (Fin 2), (s.alive 1 = true ∧ s.allocs 7 = 1) ∧ s.frees 7 = 1 := by
  have hrun : ∃ s : State (Fin 2), Run step Allowed twoProcs
      [.call 0 (.pipe true), .call 0 (.fork (some 1) true), .call 0 (.close 0), .call 0 (.close 1),
        .call 1 (.close 1), .call 1 (.close 0)] s ∧
      (∀ x, s.ofile x = none) ∧ s.alive 1 = true ∧ s.allocs 7 = 1 := Run.exists_of_outcome (by decide +kernel)
  obtain ⟨s, hr, hclosed, hs⟩ := hrun
  exact ⟨s, hs, ((nothing_leaks twoProcs_fresh hr hclosed).2 7).2.symm.trans hs.2⟩

end Xv6.Files
