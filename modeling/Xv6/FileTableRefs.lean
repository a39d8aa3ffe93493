import Xv6.FileTable
import Xv6.Lib.Ensures
import Xv6.Lib.Transition
import Mathlib.Algebra.Group.Pi.Basic
import Mathlib.Tactic.Abel

namespace Xv6.Files

open Xv6.Inodes (nfile nofile ndev oWronly oRdwr FileType)
open Xv6.Lib Function

variable {ι : Type}

def Pipe.isOpen (pi : Pipe) (w : Bool) : Bool := if w then pi.writeopen else pi.readopen

theorem Pipe.isOpen_close (pi : Pipe) (w v : Bool) :
    (pi.close w).isOpen v = if v = w then false else pi.isOpen v := by
  cases w <;> cases v <;> rfl

/-- `E pg w f` says that file `f` is the write or read end of the pipe in page `pg`. -/
structure Ends (E : Nat → Bool → Fin nfile → Prop) (pipe : Nat → Option Pipe) : Prop where
  live : ∀ {pg w f}, E pg w f → ∃ pi, pipe pg = some pi
  ends : ∀ {pg pi} w, pipe pg = some pi → (pi.isOpen w = true ↔ ∃ f, E pg w f)
  once : ∀ {pg w f g}, E pg w f → E pg w g → f = g
  used : ∀ {pg pi}, pipe pg = some pi → ∃ w, pi.isOpen w = true

section Ends

variable {E E' : Nat → Bool → Fin nfile → Prop} {pipe : Nat → Option Pipe} {pg : Nat} {w : Bool}
  {f : Fin nfile} {pi : Pipe}

theorem Ends.congr (h : Ends E pipe) (hE : ∀ pg w f, E' pg w f ↔ E pg w f) : Ends E' pipe := by
  have : E' = E := by
    funext pg w f
    exact propext (hE pg w f)
  exact this ▸ h

theorem Ends.create (f0 f1 : Fin nfile) (h : Ends E pipe) (hpg : pipe pg = none)
    (hE : ∀ pg' w f, E' pg' w f ↔ E pg' w f ∨ pg' = pg ∧ f = if w then f1 else f0) :
    Ends E' (update pipe pg (some ⟨true, true, 0, 0⟩)) := by
  have hnot : ∀ {w f}, ¬ E pg w f := by
    intro w f he
    obtain ⟨pi, hpi⟩ := h.live he
    rw [hpg] at hpi
    cases hpi
  have hold : ∀ {pg' w f}, pg' ≠ pg → (E' pg' w f ↔ E pg' w f) := by
    intro pg' w f hne
    simp [hE, hne]
  have hnew : ∀ {w f}, E' pg w f ↔ f = if w then f1 else f0 := by
    intro w f
    simp [hE, hnot]
  constructor
  · intro pg' w f he
    by_cases hne : pg' = pg
    · exact ⟨_, by rw [hne, update_self]⟩
    · obtain ⟨pi, hpi⟩ := h.live ((hold hne).mp he)
      exact ⟨pi, by rw [update_of_ne hne, hpi]⟩
  · intro pg' pi w hpi
    obtain rfl | hne := eq_or_ne pg' pg
    · rw [update_self] at hpi
      cases hpi
      simp only [hnew, exists_eq, iff_true]
      cases w <;> rfl
    · rw [update_of_ne hne] at hpi
      simp only [hold hne]
      exact h.ends w hpi
  · intro pg' w f g hf hg
    obtain rfl | hne := eq_or_ne pg' pg
    · exact (hnew.mp hf).trans (hnew.mp hg).symm
    · exact h.once ((hold hne).mp hf) ((hold hne).mp hg)
  · intro pg' pi hpi
    obtain rfl | hne := eq_or_ne pg' pg
    · rw [update_self] at hpi
      cases hpi
      exact ⟨true, rfl⟩
    · rw [update_of_ne hne] at hpi
      exact h.used hpi

theorem Ends.remove (h : Ends E pipe) (hf : E pg w f) (hpi : pipe pg = some pi)
    (honly : ∀ {pg' w'}, E pg' w' f → pg' = pg ∧ w' = w) (hE : ∀ pg' w' g, E' pg' w' g ↔ E pg' w' g ∧ g ≠ f) :
    Ends E' (update pipe pg (if pi.isOpen (!w) then some (pi.close w) else none)) := by
  have hgone : ∀ {g}, ¬ E' pg w g := by
    intro g hg
    obtain ⟨hg, hne⟩ := (hE pg w g).mp hg
    exact hne (h.once hg hf)
  have hkeep : ∀ {pg' w' g}, ¬ (pg' = pg ∧ w' = w) → (E' pg' w' g ↔ E pg' w' g) := by
    intro pg' w' g hne
    rw [hE]
    refine ⟨And.left, fun hg => ⟨hg, ?_⟩⟩
    rintro rfl
    exact hne (honly hg)
  have hother : ∀ {w'}, w' ≠ w → w' = !w := by
    intro w' hw
    cases w <;> cases w' <;> simp_all
  constructor
  · intro pg' w' g hg
    obtain rfl | hne := eq_or_ne pg' pg
    · have hw : w' ≠ w := by
        rintro rfl
        exact hgone hg
      have hopen := (h.ends w' hpi).mpr ⟨g, (hkeep (fun hc => hw hc.2)).mp hg⟩
      rw [hother hw] at hopen
      exact ⟨_, by rw [update_self, if_pos hopen]⟩
    · obtain ⟨pi', hpi'⟩ := h.live ((hkeep (fun hc => hne hc.1)).mp hg)
      exact ⟨pi', by rw [update_of_ne hne, hpi']⟩
  · intro pg' pi' w' hpi'
    obtain rfl | hne := eq_or_ne pg' pg
    · rw [update_self] at hpi'
      obtain ⟨hopen, hpi'⟩ := Option.ite_none_right_eq_some.mp hpi'
      cases hpi'
      rw [Pipe.isOpen_close]
      obtain rfl | hw := eq_or_ne w' w
      · simp [hgone]
      · rw [if_neg hw, h.ends w' hpi]
        simp only [hkeep (fun hc => hw hc.2)]
    · rw [update_of_ne hne] at hpi'
      simp only [hkeep (fun hc => hne hc.1)]
      exact h.ends w' hpi'
  · intro pg' w' g g' hg hg'
    exact h.once ((hE ..).mp hg).1 ((hE ..).mp hg').1
  · intro pg' pi' hpi'
    obtain rfl | hne := eq_or_ne pg' pg
    · rw [update_self] at hpi'
      obtain ⟨hopen, hpi'⟩ := Option.ite_none_right_eq_some.mp hpi'
      cases hpi'
      refine ⟨!w, ?_⟩
      rw [Pipe.isOpen_close, if_neg (by simp), hopen]
    · rw [update_of_ne hne] at hpi'
      exact h.used hpi'

end Ends

structure Pages (s : State ι) : Prop where
  nodup : s.freelist.Nodup
  apart : ∀ pg ∈ s.freelist, s.pipe pg = none
  freed : ∀ pg, s.allocs pg = s.frees pg + if (s.pipe pg).isSome then 1 else 0

def IsEnd (s : State ι) (pg : Nat) (w : Bool) (f : Fin nfile) : Prop :=
  (s.file f).type = .pipe ∧ (s.file f).pipe = pg ∧ (s.file f).writable = w

variable {s t : State ι} {owed owed' : Fin nfile → Int} {f : Fin nfile} {p : ι} {fd : Fin nofile}

structure Kept (s t : State ι) : Prop where
  ofile : t.ofile = s.ofile
  alive : t.alive = s.alive
  initproc : t.initproc = s.initproc

theorem Kept.trans {s t u : State ι} (h : Kept s t) (h' : Kept t u) : Kept s u :=
  ⟨h'.ofile.trans h.ofile, h'.alive.trans h.alive, h'.initproc.trans h.initproc⟩

theorem kalloc_ensures (hp : Pages s) : Completes kalloc s (fun r t => match r with
    | none => t = s
    | some pg => s.pipe pg = none ∧ ∃ l, s.freelist = pg :: l ∧ t = { s with freelist := l }) := by
  unfold kalloc
  apply Ensures.bind_get
  split
  · exact .pure rfl
  · next pg l hl =>
    apply Ensures.bind_set
    exact .pure ⟨hp.apart pg (by simp [hl]), l, hl, rfl⟩

variable [Fintype ι]

def refs (ofile : ι × Fin nofile → Option (Fin nfile)) (f : Fin nfile) : Nat :=
  total (fun x => if x = some f then 1 else 0) ofile

/-- `owed f` is the number of references to `f` that the running call holds itself. -/
structure Good (s : State ι) (owed : Fin nfile → Int) : Prop where
  counts : ∀ f, ((s.file f).ref : Int) = refs s.ofile f + owed f
  closed : ∀ f, (s.file f).ref = 0 → (s.file f).type = .none
  ends : Ends (IsEnd s) s.pipe
  pages : Pages s

def one (f : Fin nfile) : Fin nfile → Int := Pi.single f 1

theorem one_apply (f g : Fin nfile) : one f g = if g = f then 1 else 0 := Pi.single_apply f 1 g

theorem Good.recount (h : Good s owed) {n : Nat} (hz : n = 0 → (s.file f).type = .none)
    (howed : ∀ g, owed' g = owed g + if g = f then (n : Int) - (s.file f).ref else 0) :
    Good { s with file := update s.file f { s.file f with ref := n } } owed' := by
  refine ⟨?_, ?_, h.ends.congr ?_, ⟨h.pages.nodup, h.pages.apart, h.pages.freed⟩⟩
  · intro g
    have hg := h.counts g
    have ho := howed g
    show (((update s.file f { s.file f with ref := n }) g).ref : Int) = refs s.ofile g + owed' g
    obtain rfl | hgf := eq_or_ne g f
    · rw [update_self]
      simp only [↓reduceIte] at ho ⊢
      omega
    · rw [update_of_ne hgf]
      simp only [hgf, ↓reduceIte] at ho
      omega
  · intro g hg
    obtain rfl | hgf := eq_or_ne g f
    · simp only [update_self] at hg ⊢
      exact hz hg
    · simp only [update_of_ne hgf] at hg ⊢
      exact h.closed g hg
  · intro pg w g
    obtain rfl | hgf := eq_or_ne g f
    · simp [IsEnd]
    · simp [IsEnd, hgf]

theorem refs_setFd [DecidableEq ι] (x : ι × Fin nofile) (v : Option (Fin nfile)) (g : Fin nfile) :
    refs (update s.ofile x v) g + (if s.ofile x = some g then 1 else 0) =
      refs s.ofile g + if v = some g then 1 else 0 :=
  total_update _ _ _ _

theorem Good.setSlot [DecidableEq ι] (h : Good s owed) {x : ι × Fin nofile} {v : Option (Fin nfile)}
    (howed : ∀ g, owed' g = owed g + (if s.ofile x = some g then 1 else 0) - if v = some g then 1 else 0) :
    Good { s with ofile := update s.ofile x v } owed' := by
  refine ⟨fun g => ?_, h.closed, h.ends, ⟨h.pages.nodup, h.pages.apart, h.pages.freed⟩⟩
  have hg := h.counts g
  have ho := howed g
  have hr := refs_setFd (s := s) x v g
  show ((s.file g).ref : Int) = _
  split at hr <;> split at hr <;> simp_all
  all_goals omega

theorem setFd_some_ensures [DecidableEq ι] (h : Good s owed) (hnone : s.ofile (p, fd) = none) :
    Completes (setFd p fd (some f)) s (fun _ t => Good t (owed - one f) ∧
      t = { s with ofile := update s.ofile (p, fd) (some f) }) := by
  apply Ensures.modify
  refine ⟨h.setSlot (fun g => ?_), rfl⟩
  simp only [Pi.sub_apply, one_apply, hnone, Option.some.injEq, eq_comm (a := g)]
  simp

theorem setFd_none_ensures [DecidableEq ι] (h : Good s owed) (hsome : s.ofile (p, fd) = some f) :
    Completes (setFd p fd none) s (fun _ t => Good t (owed + one f) ∧
      t = { s with ofile := update s.ofile (p, fd) none }) := by
  apply Ensures.modify
  refine ⟨h.setSlot (fun g => ?_), rfl⟩
  simp only [Pi.add_apply, one_apply, hsome, Option.some.injEq, eq_comm (a := g)]
  simp

theorem filealloc_ensures (h : Good s owed) :
    Completes filealloc s (fun r t => match r with
      | none => t = s
      | some f => Good t (owed + one f) ∧ (s.file f).ref = 0 ∧
          t = { s with file := update s.file f { s.file f with ref := 1 } }) := by
  unfold filealloc
  apply Ensures.bind_get
  split
  · exact .pure rfl
  · next f hf =>
    have hz : (s.file f).ref = 0 := by simpa using List.find?_some hf
    apply Ensures.bind_set
    apply Ensures.pure
    refine ⟨h.recount (by simp) (fun g => ?_), hz, rfl⟩
    simp [one_apply, hz]

theorem filedup_ensures (h : Good s owed) (hf : 0 < (s.file f).ref) :
    Completes (filedup f) s (fun _ t => Good t (owed + one f) ∧
      t = { s with file := update s.file f { s.file f with ref := (s.file f).ref + 1 } }) := by
  unfold filedup
  apply Ensures.bind_get
  rw [if_neg (by omega)]
  apply Ensures.set
  refine ⟨h.recount (by simp) (fun g => ?_), rfl⟩
  simp [one_apply]

theorem Good.drop (h : Good s owed) (hf : (s.file f).ref = 1)
    (hfile : t.file = update s.file f { s.file f with ref := 0, type := .none })
    (hofile : t.ofile = s.ofile) (hends : Ends (fun pg w g => IsEnd s pg w g ∧ g ≠ f) t.pipe)
    (hpages : Pages t) : Good t (owed - one f) := by
  refine ⟨?_, ?_, hends.congr ?_, hpages⟩
  · intro g
    have hg := h.counts g
    rw [hfile, hofile, Pi.sub_apply, one_apply]
    obtain rfl | hgf := eq_or_ne g f
    · rw [update_self, if_pos rfl]
      simp only [Nat.cast_zero]
      omega
    · rw [update_of_ne hgf, if_neg hgf]
      omega
  · intro g hg
    rw [hfile] at hg ⊢
    obtain rfl | hgf := eq_or_ne g f
    · rw [update_self]
    · rw [update_of_ne hgf] at hg ⊢
      exact h.closed g hg
  · intro pg w g
    obtain rfl | hgf := eq_or_ne g f
    · simp [IsEnd, hfile]
    · simp [IsEnd, hfile, hgf]

theorem Pipe.close_closed (pi : Pipe) (w : Bool) :
    ((pi.close w).readopen = false ∧ (pi.close w).writeopen = false) ↔ pi.isOpen (!w) = false := by
  cases w <;> simp [Pipe.close, Pipe.isOpen]

omit [Fintype ι] in
theorem pipeclose_ensures {pg : Nat} {w : Bool} {pi : Pipe} (hpi : s.pipe pg = some pi) (hp : Pages s) :
    Completes (pipeclose pg w) s (fun _ t => t.file = s.file ∧ Kept s t ∧ Pages t ∧
      t.pipe = update s.pipe pg (if pi.isOpen (!w) then some (pi.close w) else none)) := by
  have hout : pg ∉ s.freelist := by
    intro hin
    rw [hp.apart pg hin] at hpi
    cases hpi
  unfold pipeclose
  apply Ensures.bind_get
  rw [hpi]
  apply Ensures.bind_set
  split
  · next hc =>
    have hshut := (pi.close_closed w).mp hc
    apply Ensures.modify
    refine ⟨rfl, ⟨rfl, rfl, rfl⟩, ⟨?_, ?_, ?_⟩, ?_⟩
    · exact List.nodup_cons.mpr ⟨hout, hp.nodup⟩
    · intro pg' hin
      by_cases hne : pg' = pg
      · simp [hne]
      · simp only [update_of_ne hne]
        exact hp.apart pg' ((List.mem_cons.mp hin).resolve_left hne)
    · intro pg'
      have hfreed := hp.freed pg'
      obtain rfl | hne := eq_or_ne pg' pg
      · simpa [hpi] using hfreed
      · simpa [hne] using hfreed
    · simp [hshut]
  · next hc =>
    have hopen : pi.isOpen (!w) = true := by
      by_contra hshut
      exact hc ((pi.close_closed w).mpr (by simpa using hshut))
    refine .pure ⟨rfl, ⟨rfl, rfl, rfl⟩, ⟨hp.nodup, ?_, ?_⟩, ?_⟩
    · intro pg' hin
      have hne : pg' ≠ pg := by
        rintro rfl
        exact hout hin
      simp only [update_of_ne hne]
      exact hp.apart pg' hin
    · intro pg'
      have hfreed := hp.freed pg'
      obtain rfl | hne := eq_or_ne pg' pg
      · simpa [hpi] using hfreed
      · simpa [hne] using hfreed
    · rw [if_pos hopen]

theorem fileclose_ensures (h : Good s owed) (hf : 0 < (s.file f).ref) :
    Completes (fileclose f) s (fun _ t => Good t (owed - one f) ∧ Kept s t) := by
  unfold fileclose
  apply Ensures.bind_get
  rw [if_neg (by omega)]
  split
  · next hmore =>
    apply Ensures.set
    refine ⟨h.recount (by omega) (fun g => ?_), rfl, rfl, rfl⟩
    rw [Pi.sub_apply, one_apply]
    split <;> omega
  · next hlast =>
    have hone : (s.file f).ref = 1 := by omega
    apply Ensures.bind_set
    split
    · next htype =>
      have hend : IsEnd s (s.file f).pipe (s.file f).writable f := ⟨htype, rfl, rfl⟩
      obtain ⟨pi, hpi⟩ := h.ends.live hend
      refine Ensures.post (@pipeclose_ensures _ _ _ _ pi ?_ ?_) ?_
      · exact hpi
      · exact ⟨h.pages.nodup, h.pages.apart, h.pages.freed⟩
      · intro _ t ⟨hfile, hkept, hpages, hpipe⟩
        refine ⟨h.drop hone hfile hkept.ofile ?_ hpages, hkept.ofile, hkept.alive, hkept.initproc⟩
        rw [hpipe]
        refine h.ends.remove hend hpi ?_ (fun _ _ _ => Iff.rfl)
        rintro pg w ⟨-, rfl, rfl⟩
        exact ⟨rfl, rfl⟩
    · next htype =>
      refine .pure ⟨h.drop hone rfl rfl (h.ends.congr ?_) ⟨h.pages.nodup, h.pages.apart, h.pages.freed⟩,
        rfl, rfl, rfl⟩
      intro pg w g
      refine ⟨And.left, fun hg => ⟨hg, ?_⟩⟩
      rintro rfl
      exact htype hg.1

theorem Good.pos_of_owed (h : Good s owed) (ho : 0 < owed f) : 0 < (s.file f).ref := by
  have := h.counts f
  omega

theorem Good.pos_of_slot {x : ι × Fin nofile} (h : Good s 0) (hx : s.ofile x = some f) :
    0 < (s.file f).ref := by
  have hle := le_total (fun x => if x = some f then 1 else 0) s.ofile x
  rw [if_pos hx] at hle
  have hc := h.counts f
  simp only [refs, Pi.zero_apply] at hc
  omega

theorem one_nonneg (f g : Fin nfile) : 0 ≤ one f g := by
  rw [one_apply]
  split <;> decide

theorem Good.pos_of_one (h : Good s (owed + one f)) (ho : ∀ g, 0 ≤ owed g) : 0 < (s.file f).ref := by
  refine h.pos_of_owed ?_
  have := ho f
  rw [Pi.add_apply, one_apply, if_pos rfl]
  omega

theorem pipeBad_one_ensures (h : Good s (one f)) :
    Completes (pipeBad none (some f) none) s (fun r t => r = none ∧ Good t 0 ∧ Kept s t) := by
  unfold pipeBad
  apply Ensures.bind
  apply Ensures.pure
  apply Ensures.bind
  have hpos : 0 < (s.file f).ref := h.pos_of_owed (by rw [one_apply, if_pos rfl]; decide)
  refine (fileclose_ensures h hpos).post ?_
  intro _ t ⟨ht, hk⟩
  apply Ensures.bind
  apply Ensures.pure
  exact .pure ⟨rfl, by simpa using ht, hk⟩

theorem closeBoth_ensures {α : Type} {f0 f1 : Fin nfile} {m : M ι α} {Q : α → State ι → Prop}
    (h : Good s (one f0 + one f1)) (hm : ∀ t, Good t 0 → Kept s t → Completes m t Q) :
    Completes (do fileclose f0; fileclose f1; m) s Q := by
  apply Ensures.bind
  have hpos : 0 < (s.file f0).ref := by
    rw [add_comm] at h
    exact h.pos_of_one (one_nonneg f1)
  refine (fileclose_ensures h hpos).post ?_
  intro _ t ⟨ht, hk⟩
  rw [add_sub_cancel_left] at ht
  have hpos' : 0 < (t.file f1).ref := ht.pos_of_owed (by rw [one_apply, if_pos rfl]; decide)
  refine (fileclose_ensures ht hpos').seq ?_
  intro _ u ⟨hu, hk'⟩
  rw [sub_self] at hu
  exact hm u hu (hk.trans hk')

theorem Good.newPipe {f0 f1 : Fin nfile} {pg : Nat} {l : List Nat} (h : Good s owed)
    (h0 : (s.file f0).type = .none ∧ 0 < (s.file f0).ref) (h1 : (s.file f1).type = .none ∧ 0 < (s.file f1).ref)
    (hne : f1 ≠ f0) (hl : s.freelist = pg :: l) (hpg : s.pipe pg = none) :
    Good { s with
      freelist := l
      pipe := update s.pipe pg (some ⟨true, true, 0, 0⟩)
      allocs := update s.allocs pg (s.allocs pg + 1)
      file := update (update s.file f0
          { s.file f0 with type := .pipe, readable := true, writable := false, pipe := pg })
        f1 { s.file f1 with type := .pipe, readable := false, writable := true, pipe := pg } } owed := by
  have hnodup := h.pages.nodup
  rw [hl] at hnodup
  obtain ⟨hout, hnodup⟩ := List.nodup_cons.mp hnodup
  refine ⟨fun g => ?_, fun g hg => ?_, h.ends.create f0 f1 hpg fun pg' w g => ?_, hnodup, ?_, ?_⟩
  · have hg := h.counts g
    obtain rfl | hg1 := eq_or_ne g f1
    · simpa using hg
    · obtain rfl | hg0 := eq_or_ne g f0
      · simpa [hg1] using hg
      · simpa [hg0, hg1] using hg
  · obtain rfl | hg1 := eq_or_ne g f1
    · simp only [update_self] at hg
      omega
    · obtain rfl | hg0 := eq_or_ne g f0
      · simp only [update_of_ne hg1, update_self] at hg
        omega
      · simp only [update_of_ne hg1, update_of_ne hg0] at hg ⊢
        exact h.closed g hg
  · obtain rfl | hg1 := eq_or_ne g f1
    · cases w <;> simp [IsEnd, h1.1, hne, eq_comm (a := pg)]
    · obtain rfl | hg0 := eq_or_ne g f0
      · cases w <;> simp [IsEnd, h0.1, hg1, eq_comm (a := pg)]
      · cases w <;> simp [IsEnd, hg0, hg1]
  · intro pg' hin
    have hne : pg' ≠ pg := by
      rintro rfl
      exact hout hin
    simp only [update_of_ne hne]
    exact h.pages.apart pg' (by simp [hl, hin])
  · intro pg'
    have hfreed := h.pages.freed pg'
    obtain rfl | hne := eq_or_ne pg' pg
    · simpa [hpg] using hfreed
    · simpa [hne] using hfreed

theorem pipealloc_ensures (h : Good s 0) :
    Completes pipealloc s (fun r t => Kept s t ∧ match r with
      | none => Good t 0
      | some (f0, f1) => Good t (one f0 + one f1)) := by
  unfold pipealloc
  refine (filealloc_ensures h).seq ?_
  intro r t ht
  cases r with
  | none =>
    subst ht
    exact .pure ⟨⟨rfl, rfl, rfl⟩, h⟩
  | some f0 =>
    obtain ⟨hg, hz0, ht⟩ := ht
    rw [zero_add] at hg
    have hk : Kept s t := ht ▸ ⟨rfl, rfl, rfl⟩
    have hfile0 : (t.file f0).type = .none ∧ (t.file f0).ref = 1 := by
      rw [ht]
      simpa using h.closed f0 hz0
    refine (filealloc_ensures hg).seq ?_
    intro r u hu
    cases r with
    | none =>
      subst hu
      refine (pipeBad_one_ensures hg).post ?_
      intro r u ⟨hr, hu, hk'⟩
      subst hr
      exact ⟨hk.trans hk', hu⟩
    | some f1 =>
      obtain ⟨hg', hz1, hu⟩ := hu
      have hne : f1 ≠ f0 := by
        rintro rfl
        rw [hz1] at hfile0
        exact absurd hfile0.2 (by decide)
      have hk' : Kept s u := hk.trans (hu ▸ ⟨rfl, rfl, rfl⟩)
      have hfile0' : (u.file f0).type = .none ∧ 0 < (u.file f0).ref := by
        rw [hu]
        simp only [update_of_ne (Ne.symm hne)]
        exact ⟨hfile0.1, by omega⟩
      have hfile1 : (u.file f1).type = .none ∧ 0 < (u.file f1).ref := by
        rw [hu]
        simpa using hg.closed f1 hz1
      refine (kalloc_ensures hg'.pages).seq ?_
      intro r v hv
      cases r with
      | none =>
        subst hv
        unfold pipeBad
        apply Ensures.bind
        apply Ensures.pure
        refine closeBoth_ensures hg' ?_
        intro w hw hkw
        exact .pure ⟨hk'.trans hkw, hw⟩
      | some pg =>
        obtain ⟨hpg, l, hl, hv⟩ := hv
        subst hv
        apply Ensures.bind_modify
        apply Ensures.bind_modify
        apply Ensures.bind_modify
        simp only [update_of_ne hne]
        exact .pure ⟨⟨hk'.ofile, hk'.alive, hk'.initproc⟩, hg'.newPipe hfile0' hfile1 hne hl hpg⟩

end Xv6.Files
