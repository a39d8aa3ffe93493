import Xv6.CreateCall

namespace Xv6.Inodes

open Xv6.Lib Finset LinkGraph Function

variable {ι : Type} [Fintype ι] {strict safe : Prop} {pend extra q : Nat → Nat}
  {opens o : Fin nfile → Nat} {s t : State ι} {f : Fin nfile} {x : Option Proc} {p : ι} {fd k : Nat}
  {E : String → State ι → Prop}

def State.setFile (s : State ι) (f : Fin nfile) (x : File) : State ι :=
  { s with file := update s.file f x }

theorem Refs.setFile (h : Refs safe extra opens s) {x : File}
    (href : x.ref + opens f = (s.file f).ref + o f) (ho : ∀ g, g ≠ f → o g = opens g)
    (hidle : x.ref = 0 → x.ip = none) (hip : ∀ i, fileRefs i x + q i = fileRefs i (s.file f) + extra i)
    (hnode : ∀ i, x.ip = some i → (s.inode i).type ≠ .free) : Refs safe q o (s.setFile f x) := by
  have hhold : ∀ i, holders (s.setFile f x) i + fileRefs i (s.file f) = holders s i + fileRefs i x := by
    intro i
    have := total_update (fileRefs i) s.file f x
    show total (cwdRefs i) s.proc + total (fileRefs i) (update s.file f x) + _ = _
    unfold holders
    omega
  have hself : (s.setFile f x).file f = x := update_self ..
  have hoff : ∀ g, g ≠ f → (s.setFile f x).file g = s.file g := fun g hg => update_of_ne hg ..
  constructor
  · exact h.fds
  · intro g
    obtain rfl | hg := eq_or_ne g f
    · rw [hself]
      have := h.files g
      show x.ref = total (fdRefs g) s.proc + o g
      omega
    · rw [hoff g hg, ho g hg]
      exact h.files g
  · intro g
    by_cases hg : g = f
    · rw [hg, hself]
      exact hidle
    · rw [hoff g hg]
      exact h.idle g
  · intro i
    have h1 := hhold i
    have h2 := h.count i
    have h3 := hip i
    show (s.inode i).ref = _
    omega
  · exact h.valid
  · rintro i (hi | hi)
    · by_cases hx : x.ip = some i
      · exact hnode i hx
      · have h1 := hhold i
        have h2 : fileRefs i x = 0 := if_neg hx
        exact h.held i (.inl (by omega))
    · exact h.held i (.inr hi)

theorem Inv.setFile (h : Inv strict safe pend extra opens s) {x : File}
    (href : x.ref + opens f = (s.file f).ref + o f) (ho : ∀ g, g ≠ f → o g = opens g)
    (hidle : x.ref = 0 → x.ip = none) (hip : ∀ i, fileRefs i x + q i = fileRefs i (s.file f) + extra i)
    (hnode : ∀ i, x.ip = some i → (s.inode i).type ≠ .free) :
    Inv strict safe pend q o (s.setFile f x) :=
  ⟨h.links.congr ⟨rfl, fun _ => rfl, fun _ => rfl, fun _ => rfl, fun _ => rfl⟩,
    h.refs.setFile href ho hidle hip hnode⟩

theorem file_held (s : State ι) {i : Nat} (hf : (s.file f).ip = some i) :
    0 < holders s i := by
  have := le_total (fileRefs i) s.file f
  rw [fileRefs, if_pos hf] at this
  unfold holders
  omega

theorem fileclose_ensures (h : Inv strict safe pend extra (bump opens f) s) :
    Ensures (fileclose f) s (fun _ t => Inv strict safe pend extra opens t ∧ t.proc = s.proc)
      (Typed safe) := by
  have hfiles := h.refs.files f
  rw [bump_self] at hfiles
  have ho : ∀ g, g ≠ f → opens g = bump opens f g := fun g hg => (bump_of_ne opens hg).symm
  unfold fileclose
  apply Ensures.bind_get
  dsimp only
  split
  · exact .throw ⟨by decide, fun _ => by decide⟩
  split
  · apply Ensures.set
    refine ⟨h.setFile ?_ ho ?_ (fun _ => rfl) ?_, rfl⟩
    · rw [bump_self]
      show (s.file f).ref - 1 + _ = _
      omega
    · intro hc
      have hc : (s.file f).ref - 1 = 0 := hc
      omega
    · exact fun i hi => h.refs.held i (.inl (file_held s hi))
  · apply Ensures.bind_set
    have hzero : (0 : Nat) + bump opens f f = (s.file f).ref + opens f := by
      rw [bump_self]
      omega
    cases hip : (s.file f).ip with
    | none =>
      refine .pure ⟨h.setFile hzero ho (fun _ => rfl) (fun i => ?_) nofun, rfl⟩
      simp [fileRefs, hip]
    | some i =>
      have hmoved : Inv strict safe pend (bump extra i) opens (s.setFile f ⟨0, none⟩) := by
        refine h.setFile hzero ho (fun _ => rfl) (fun j => ?_) nofun
        simp only [fileRefs, hip, bump_apply, Option.some.injEq, reduceCtorEq, if_false]
        omega
      exact (iput_ensures hmoved).post fun _ t ht => ⟨ht.1, ht.2.1.proc⟩

theorem filedup_ensures (h : Inv strict safe pend extra opens s) (f : Fin nfile) :
    Ensures (filedup f) s (fun _ t => Inv strict safe pend extra (bump opens f) t ∧ t.proc = s.proc ∧
      t.inode = s.inode) (Typed safe) := by
  unfold filedup
  apply Ensures.bind_get
  split
  · exact .throw ⟨by decide, fun _ => by decide⟩
  apply Ensures.set
  refine ⟨h.setFile ?_ (fun g hg => bump_of_ne opens hg) ?_ (fun _ => rfl) ?_, rfl, rfl⟩
  · rw [bump_self]
    show (s.file f).ref + 1 + _ = _
    omega
  · intro hc
    have hc : (s.file f).ref + 1 = 0 := hc
    omega
  · exact fun i hi => h.refs.held i (.inl (file_held s hi))

theorem dupFiles_ensures (fs : List (Option (Fin nfile))) (h : Inv strict safe pend extra opens s) :
    Ensures (dupFiles fs) s (fun _ t =>
      Inv strict safe pend extra (fun f => opens f + fs.count (some f)) t ∧ t.proc = s.proc ∧
        t.inode = s.inode) (Typed safe) := by
  induction fs generalizing s opens with
  | nil => exact .pure ⟨h, rfl, rfl⟩
  | cons x fs ih =>
    cases x with
    | none =>
      refine (ih h).post fun _ t ht => ?_
      simpa only [List.count_cons, beq_iff_eq, reduceCtorEq, if_false, add_zero] using ht
    | some f =>
      refine (filedup_ensures h f).seq fun _ t ⟨ht, hp, hi⟩ => ?_
      refine (ih ht).post fun _ u ⟨hu, hpu, hiu⟩ => ?_
      refine ⟨?_, hpu.trans hp, hiu.trans hi⟩
      have heq : (fun g => bump opens f g + fs.count (some g)) =
          fun g => opens g + (some f :: fs).count (some g) := by
        funext g
        simp only [bump_apply, List.count_cons, beq_iff_eq, Option.some.injEq]
        omega
      rwa [heq] at hu

theorem filealloc_ensures (h : Inv strict safe pend extra opens s) :
    Ensures filealloc s (fun r t => match r with
      | none => t = s
      | some f => Inv strict safe pend extra (bump opens f) t ∧ t.inode = s.inode ∧
          t.file f = ⟨1, none⟩) E := by
  unfold filealloc
  apply Ensures.bind_get
  cases hf : (List.finRange nfile).find? fun f => (s.file f).ref = 0 with
  | none => exact .pure rfl
  | some f =>
    have href : (s.file f).ref = 0 := by simpa using List.find?_some hf
    have hip := h.refs.idle f href
    apply Ensures.bind_set
    refine .pure ⟨h.setFile ?_ (fun g hg => bump_of_ne opens hg) (fun hc => absurd hc Nat.one_ne_zero)
      (fun _ => rfl) ?_, rfl, ?_⟩
    · rw [bump_self, href]
      show 1 + _ = _
      omega
    · exact fun i hi => absurd (hip.symm.trans hi) nofun
    · show update s.file f _ f = _
      rw [update_self, hip]

theorem sysMake_ensures (h : Inv strict safe (fun _ => 0) (fun _ => 0) opens s) (p : ι)
    (path : List UInt8) {type : FileType} (major : Int) (htype : type ≠ .free)
    (hlive : strict ∨ type = .dir → CreateLive p path s) :
    Ensures (sysMake p path type major) s (fun _ t => Inv strict safe (fun _ => 0) (fun _ => 0) opens t)
      (Typed safe) := by
  unfold sysMake
  refine (create_ensures h p path major htype hlive).seq fun r t ht => ?_
  cases r with
  | none => exact .pure ht
  | some ip =>
    exact (iput_ensures ht.1).seq fun _ u hu => .pure hu.1

variable [DecidableEq ι]

theorem Refs.setProc (h : Refs safe extra opens s) (hlen : ∀ pr, x = some pr → pr.ofile.length = nofile)
    (hcwd : ∀ i, cwdRefs i x + q i = cwdRefs i (s.proc p) + extra i)
    (hfd : ∀ f, fdRefs f x + o f = fdRefs f (s.proc p) + opens f)
    (hnode : ∀ i, 0 < cwdRefs i x → (s.inode i).type ≠ .free) : Refs safe q o (s.setProc p x) := by
  have hhold : ∀ i, holders (s.setProc p x) i + cwdRefs i (s.proc p) = holders s i + cwdRefs i x := by
    intro i
    have := total_update (cwdRefs i) s.proc p x
    show total (cwdRefs i) (update s.proc p x) + total (fileRefs i) s.file + _ = _
    unfold holders
    omega
  constructor
  · intro r pr hr
    have hr : update s.proc p x r = some pr := hr
    by_cases hrp : r = p
    · rw [hrp, update_self] at hr
      exact hlen pr hr
    · rw [update_of_ne hrp] at hr
      exact h.fds r pr hr
  · intro f
    have h1 := total_update (fdRefs f) s.proc p x
    have h2 := h.files f
    have h3 := hfd f
    show (s.file f).ref = total (fdRefs f) (update s.proc p x) + o f
    omega
  · exact h.idle
  · intro i
    have h1 := hhold i
    have h2 := h.count i
    have h3 := hcwd i
    show (s.inode i).ref = _
    omega
  · exact h.valid
  · rintro i (hi | hi)
    · by_cases hx : 0 < cwdRefs i x
      · exact hnode i hx
      · have := hhold i
        exact h.held i (.inl (by omega))
    · exact h.held i (.inr hi)

theorem Inv.setProc (h : Inv strict safe pend extra opens s)
    (hlen : ∀ pr, x = some pr → pr.ofile.length = nofile)
    (hcwd : ∀ i, cwdRefs i x + q i = cwdRefs i (s.proc p) + extra i)
    (hfd : ∀ f, fdRefs f x + o f = fdRefs f (s.proc p) + opens f)
    (hnode : ∀ i, 0 < cwdRefs i x → (s.inode i).type ≠ .free) :
    Inv strict safe pend q o (s.setProc p x) :=
  ⟨h.links.congr ⟨rfl, fun _ => rfl, fun _ => rfl, fun _ => rfl, fun _ => rfl⟩,
    h.refs.setProc hlen hcwd hfd hnode⟩

/-- A computation that neither reads nor writes the process table. -/
def Oblivious {α : Type} (m : F ι α) : Prop :=
  ∀ (s : State ι) (p : ι) (x : Option Proc), m (s.setProc p x) = match m s with
    | .ok a t => .ok a (t.setProc p x)
    | .error e t => .error e (t.setProc p x)

omit [Fintype ι] in
theorem Oblivious.ensures {α : Type} {m : F ι α} (hm : Oblivious m)
    {Q : α → State ι → Prop} (h : Ensures m (s.setProc p x) Q (Typed safe)) :
    Ensures m s (fun a t => Q a (t.setProc p x)) (Typed safe) := by
  unfold Ensures at h ⊢
  rw [hm s p x] at h
  cases hs : m s with
  | ok a t | error e t =>
    rw [hs] at h
    exact h

omit [Fintype ι] in
theorem iput_oblivious (i : Nat) : Oblivious (iput i : F ι Unit) := by
  intro s p x
  have : ∀ n, (s.setProc p x).set i n = (s.set i n).setProc p x := fun _ => rfl
  show EStateM.Result.ok _ _ = EStateM.Result.ok _ _
  congr 1
  dsimp only
  by_cases hc : (s.inode i).ref = 1 ∧ (s.inode i).valid = true ∧ (s.inode i).nlink = 0
  · rw [if_pos hc]
    exact if_pos hc
  · rw [if_neg hc]
    exact if_neg hc

omit [Fintype ι] in
theorem fileclose_oblivious (f : Fin nfile) : Oblivious (fileclose f : F ι Unit) := by
  intro s p x
  by_cases href : (s.file f).ref < 1
  · have h : ∀ t : State ι, t.file = s.file → fileclose f t = .error "fileclose" t := by
      intro t ht
      show (if (t.file f).ref < 1 then throw "fileclose" else _ : F ι Unit) t = _
      rw [ht, if_pos href]
      rfl
    rw [h s rfl, h (s.setProc p x) rfl]
  by_cases hmore : 0 < (s.file f).ref - 1
  · have h : ∀ t : State ι, t.file = s.file → fileclose f t =
        .ok () (t.setFile f { s.file f with ref := (s.file f).ref - 1 }) := by
      intro t ht
      show (if (t.file f).ref < 1 then throw "fileclose" else if 0 < (t.file f).ref - 1 then _ else _ :
        F ι Unit) t = _
      rw [ht, if_neg href, if_pos hmore, ← ht]
      rfl
    rw [h s rfl, h (s.setProc p x) rfl]
    rfl
  · have h : ∀ t : State ι, t.file = s.file → fileclose f t =
        ((s.file f).ip.elim (pure ()) iput : F ι Unit) (t.setFile f ⟨0, none⟩) := by
      intro t ht
      show (if (t.file f).ref < 1 then throw "fileclose" else if 0 < (t.file f).ref - 1 then _ else _ :
        F ι Unit) t = _
      rw [ht, if_neg href, if_neg hmore, ← ht]
      cases (t.file f).ip <;> rfl
    rw [h s rfl, h (s.setProc p x) rfl]
    cases (s.file f).ip with
    | none => rfl
    | some i => exact iput_oblivious i (s.setFile f ⟨0, none⟩) p x

theorem fdRefs_set {pr : Proc} {x y : Option (Fin nfile)} (hfd : pr.ofile[fd]? = some x) (f : Fin nfile) :
    fdRefs f (some { pr with ofile := pr.ofile.set fd y }) + (if x = some f then 1 else 0) =
      fdRefs f (some pr) + if y = some f then 1 else 0 := by
  obtain ⟨hlt, hx⟩ := List.getElem?_eq_some_iff.mp hfd
  have hpos : x = some f → 0 < pr.ofile.count (some f) := by
    rintro rfl
    exact List.count_pos_iff.mpr (hx ▸ List.getElem_mem hlt)
  simp only [fdRefs, List.count_set hlt, hx, beq_iff_eq]
  by_cases hxf : x = some f
  · have := hpos hxf
    simp only [hxf, if_true]
    omega
  · simp [hxf]

theorem Inv.clearFd (h : Inv strict safe pend extra opens s) {pr : Proc} (hp : s.proc p = some pr)
    (hfd : pr.ofile[fd]? = some (some f)) :
    Inv strict safe pend extra (bump opens f)
      (s.setProc p (some { pr with ofile := pr.ofile.set fd none })) := by
  refine h.setProc ?_ ?_ ?_ ?_
  · intro pr' hpr
    rw [← Option.some.inj hpr, List.length_set]
    exact h.refs.fds p pr hp
  · intro i
    rw [hp]
    rfl
  · intro g
    have := fdRefs_set (y := none) hfd g
    rw [hp, bump_apply]
    simp only [Option.some.injEq, reduceCtorEq, if_false] at this
    omega
  · intro i hi
    have hi : pr.cwd = i := by
      by_contra hc
      simp [cwdRefs, hc] at hi
    exact h.refs.held i (.inl (hi ▸ cwd_held s hp))

theorem getD_some {l : List (Option (Fin nfile))} (h : l.getD k none = some f) :
    l[k]? = some (some f) := by
  rw [List.getD_eq_getElem?_getD] at h
  cases hx : l[k]? with
  | none => simp [hx] at h
  | some y => simpa [hx] using h

theorem sysClose_ensures (h : Inv strict safe pend extra opens s) (p : ι) (fd : Nat) :
    Ensures (sysClose p fd) s (fun _ t => Inv strict safe pend extra opens t) (Typed safe) := by
  unfold sysClose
  apply Ensures.bind_get
  cases hp : s.proc p with
  | none => exact .pure h
  | some pr =>
    cases hfd : pr.ofile.getD fd none with
    | none =>
      simp only [hfd]
      exact .pure h
    | some f =>
      simp only [hfd]
      apply Ensures.bind_set
      exact (fileclose_ensures (h.clearFd hp (getD_some hfd))).seq fun _ t ht => .pure ht.1

def Closed (p : ι) (k : Nat) (s : State ι) : Prop :=
  ∃ pr, s.proc p = some pr ∧ ∀ j, j < k → pr.ofile.getD j none = none

theorem exitFile_ensures (h : Inv strict safe pend extra opens s) (hc : Closed p k s) :
    Ensures (exitFile p k) s (fun _ t => Inv strict safe pend extra opens t ∧ Closed p (k + 1) t)
      (Typed safe) := by
  obtain ⟨pr, hp, hclosed⟩ := hc
  unfold exitFile
  apply Ensures.bind_get
  simp only [hp]
  cases hfd : pr.ofile.getD k none with
  | none =>
    refine .pure ⟨h, pr, hp, fun j hj => ?_⟩
    by_cases hjk : j = k
    · rw [hjk, hfd]
    · exact hclosed j (by omega)
  | some f =>
    refine ((fileclose_oblivious f).ensures (p := p)
      (x := some { pr with ofile := pr.ofile.set k none })
      (fileclose_ensures (h.clearFd hp (getD_some hfd)))).seq fun _ t ht => ?_
    apply Ensures.modify
    refine ⟨ht.1, _, update_self .., fun j hj => ?_⟩
    show (pr.ofile.set k none).getD j none = none
    rw [List.getD_eq_getElem?_getD, List.getElem?_set]
    by_cases hjk : k = j
    · rw [if_pos hjk]
      split <;> rfl
    · rw [if_neg hjk, ← List.getD_eq_getElem?_getD]
      exact hclosed j (by omega)

theorem kexit_ensures (h : Inv strict safe pend extra opens s) (hp : (s.proc p).isSome) :
    Ensures (kexit p) s (fun _ t => Inv strict safe pend extra opens t) (Typed safe) := by
  unfold kexit
  apply Ensures.bind_get
  split
  · exact .throw ⟨by decide, fun _ => by decide⟩
  obtain ⟨pr, hpr⟩ := Option.isSome_iff_exists.mp hp
  refine (Ensures.forM_range (exitFile p)
    (fun k t => Inv strict safe pend extra opens t ∧ Closed p k t) nofile
    (fun k t _ ht => exitFile_ensures ht.1 ht.2) ⟨h, pr, hpr, fun j hj => absurd hj (Nat.not_lt_zero j)⟩).seq
    fun _ t ht => ?_
  obtain ⟨ht, pr, hp, hclosed⟩ := ht
  apply Ensures.bind_get
  simp only [hp]
  apply Ensures.bind
  have hnofd : ∀ f, fdRefs f (some pr) = 0 := by
    intro f
    refine List.count_eq_zero.mpr fun hmem => ?_
    obtain ⟨j, hj, hget⟩ := List.mem_iff_getElem.mp hmem
    have := hclosed j (by rw [← ht.refs.fds p pr hp]; exact hj)
    rw [List.getD_eq_getElem?_getD, List.getElem?_eq_getElem hj, hget] at this
    cases this
  have hgone : Inv strict safe pend (bump extra pr.cwd) opens (t.setProc p none) := by
    refine ht.setProc nofun (fun i => ?_) (fun f => ?_) nofun
    · rw [hp]
      simp only [cwdRefs, bump_apply]
      omega
    · rw [hp, hnofd]
      rfl
  exact ((iput_oblivious pr.cwd).ensures (iput_ensures hgone)).post fun _ u hu => .modify hu.1

theorem sysChdir_ensures (h : Inv strict safe pend extra opens s) (hp : (s.proc p).isSome)
    (path : List UInt8) :
    Ensures (sysChdir p path) s (fun _ t => Inv strict safe pend extra opens t) (Typed safe) := by
  unfold sysChdir
  refine (namex_ensures h p path false).seq fun r t ht => ?_
  obtain ⟨hf, -, ht⟩ := ht
  cases r with
  | none => exact .pure ht
  | some x =>
    obtain ⟨ip, name⟩ := x
    obtain ⟨ht, -⟩ := ht
    refine (ilock_ensures ht (ref_pos ht)).seq fun _ u ⟨hu, _, hfu, hnode⟩ => ?_
    apply Ensures.bind_get
    split
    · exact (iput_ensures hu).seq fun _ v hv => .pure hv.1
    cases hp' : u.proc p with
    | none =>
      rw [hfu.proc, hf.proc] at hp'
      rw [hp'] at hp
      cases hp
    | some pr =>
      simp only
      apply Ensures.bind
      have hmoved : Inv strict safe pend (bump extra pr.cwd) opens
          (u.setProc p (some { pr with cwd := ip })) := by
        refine hu.setProc ?_ (fun i => ?_) (fun f => ?_) ?_
        · intro pr' hpr
          rw [← Option.some.inj hpr]
          exact hu.refs.fds p pr hp'
        · rw [hp']
          simp only [cwdRefs, bump_apply]
          omega
        · rw [hp']
          rfl
        · intro i hi
          have hi : ip = i := by
            by_contra hc
            simp [cwdRefs, hc] at hi
          exact hi ▸ hnode
      refine ((iput_oblivious pr.cwd).ensures (iput_ensures hmoved)).post fun _ v hv => ?_
      apply Ensures.bind
      exact .modify (.pure hv.1)

theorem kfork_ensures (h : Inv strict safe pend extra opens s) (p child : ι) :
    Ensures (kfork p child) s (fun _ t => Inv strict safe pend extra opens t) (Typed safe) := by
  unfold kfork
  apply Ensures.bind_get
  cases hp : s.proc p with
  | none => exact .pure h
  | some pr =>
    cases hc : s.proc child with
    | some _ => exact .pure h
    | none =>
      refine (dupFiles_ensures pr.ofile h).seq fun _ t ⟨ht, hproc, hinode⟩ => ?_
      have hpt : t.proc p = some pr := by rw [hproc, hp]
      have hheld := cwd_held t hpt
      have hpos : 0 < (t.inode pr.cwd).ref := by
        have := ht.refs.count pr.cwd
        omega
      have hnode := ht.refs.held pr.cwd (.inl hheld)
      refine (idup_ensures ht hpos fun _ => hnode).seq fun _ u ⟨hu, hdu, hfu⟩ => ?_
      apply Ensures.bind_modify
      refine .pure (hu.setProc ?_ (fun i => ?_) (fun f => ?_) ?_)
      · intro pr' hpr
        rw [← Option.some.inj hpr]
        exact h.refs.fds p pr hp
      · rw [hfu.proc, hproc, hc]
        simp only [cwdRefs, bump_apply]
        omega
      · rw [hfu.proc, hproc, hc]
        simp only [fdRefs]
        omega
      · intro i hi
        have hi : pr.cwd = i := by
          by_contra hne
          simp [cwdRefs, hne] at hi
        rw [hdu.type, ← hi]
        exact hnode

theorem fdalloc_ensures (h : Inv strict safe pend extra (bump opens f) s) (p : ι) :
    Ensures (fdalloc p f) s (fun r t => match r with
      | none => t = s
      | some _ => Inv strict safe pend extra opens t ∧ t.inode = s.inode ∧ t.file = s.file) E := by
  unfold fdalloc
  apply Ensures.bind_get
  cases hp : s.proc p with
  | none => exact .pure rfl
  | some pr =>
    simp only
    cases hfd : pr.ofile.findIdx? fun x => x = none with
    | none => exact .pure rfl
    | some fd =>
      obtain ⟨hlt, hnone, -⟩ := List.findIdx?_eq_some_iff_getElem.mp hfd
      have hget : pr.ofile[fd]? = some none := by
        rw [List.getElem?_eq_getElem hlt, of_decide_eq_true hnone]
      apply Ensures.bind_set
      refine .pure ⟨h.setProc ?_ (fun i => ?_) (fun g => ?_) ?_, rfl, rfl⟩
      · intro pr' hpr
        rw [← Option.some.inj hpr, List.length_set]
        exact h.refs.fds p pr hp
      · rw [hp]
        rfl
      · have := fdRefs_set (y := some f) hget g
        rw [hp, bump_apply]
        simp only [Option.some.injEq, reduceCtorEq, if_false] at this
        omega
      · intro i hi
        have hi : pr.cwd = i := by
          by_contra hc
          simp [cwdRefs, hc] at hi
        exact h.refs.held i (.inl (hi ▸ cwd_held s hp))

theorem openInode_ensures {ip : Nat} (h : Inv strict safe pend (bump extra ip) opens s)
    (hnode : (s.inode ip).type ≠ .free) (p : ι) (omode : Nat) :
    Ensures (openInode p ip omode) s (fun _ t => Inv strict safe pend extra opens t) (Typed safe) := by
  unfold openInode
  apply Ensures.bind_get
  dsimp only
  split
  · exact (iput_ensures h).seq fun _ t ht => .pure ht.1
  refine (filealloc_ensures h).seq fun r t ht => ?_
  cases r with
  | none =>
    rw [show t = s from ht]
    exact (iput_ensures h).seq fun _ t ht => .pure ht.1
  | some f =>
    obtain ⟨ht, hi, hfile⟩ := ht
    refine (fdalloc_ensures ht p).seq fun r u hu => ?_
    cases r with
    | none =>
      rw [show u = t from hu]
      refine (fileclose_ensures ht).seq fun _ v hv => ?_
      exact (iput_ensures hv.1).seq fun _ w hw => .pure hw.1
    | some fd =>
      obtain ⟨hu, hiu, hfu⟩ := hu
      have hfile' : u.file f = ⟨1, none⟩ := by rw [hfu, hfile]
      have hinode : u.inode = s.inode := hiu.trans hi
      apply Ensures.bind_modify
      have hdone : Inv strict safe pend extra opens (u.setFile f { u.file f with ip := some ip }) := by
        refine hu.setFile rfl (fun _ _ => rfl) ?_ (fun i => ?_) ?_
        · intro hc
          rw [hfile'] at hc
          cases hc
        · rw [hfile']
          simp only [fileRefs, bump_apply, Option.some.injEq, reduceCtorEq, if_false]
          omega
        · intro i hip
          rw [hinode, ← Option.some.inj hip]
          exact hnode
      split
      · rename_i htrunc
        apply Ensures.bind_modify
        refine .pure ⟨hdone.links.trunc ?_, hdone.refs.keep rfl rfl rfl⟩
        show (u.inode ip).type ≠ .dir
        rw [hinode, htrunc.2]
        decide
      · exact .pure hdone

theorem sysOpen_ensures (h : Inv strict safe (fun _ => 0) (fun _ => 0) opens s) (p : ι)
    (path : List UInt8) (omode : Nat) (hlive : strict → omode &&& oCreate ≠ 0 → CreateLive p path s) :
    Ensures (sysOpen p path omode) s (fun _ t => Inv strict safe (fun _ => 0) (fun _ => 0) opens t)
      (Typed safe) := by
  unfold sysOpen
  split
  · rename_i hcreate
    refine (create_ensures h p path 0 (by decide) ?_).seq fun r t ht => ?_
    · rintro (hs | hc)
      · exact hlive hs hcreate
      · cases hc
    · cases r with
      | none => exact .pure ht
      | some ip => exact openInode_ensures ht.1 ht.2 p omode
  · refine (namex_ensures h p path false).seq fun r t ht => ?_
    obtain ⟨-, -, ht⟩ := ht
    cases r with
    | none => exact .pure ht
    | some x =>
      obtain ⟨ip, name⟩ := x
      obtain ⟨ht, -⟩ := ht
      refine (ilock_ensures ht (ref_pos ht)).seq fun _ u ⟨hu, _, _, hnode⟩ => ?_
      apply Ensures.bind_get
      split
      · exact (iput_ensures hu).seq fun _ v hv => .pure hv.1
      · exact openInode_ensures hu hnode p omode

end Xv6.Inodes
