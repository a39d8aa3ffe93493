import Mathlib.Order.CompletePartialOrder
import Xv6.Inodes
import Xv6.Lib.Zoom
import Xv6.MemoryCopy
import Xv6.Threads
import Xv6.UserCopy

namespace Xv6.Fork

open Xv6.Lib Xv6.Lib.Words Xv6.Vm Function
open Xv6.Inodes (nfile nofile ninode)
open Xv6.Threads (ProcState)

def nproc : Nat := 64

structure Context where
  ra : Nat
  sp : Nat
  saved : Fin 12 → Nat

/-- `struct proc`; a null pointer to a page is 0. -/
structure Process where
  state : ProcState
  chan : Nat
  killed : Int
  xstate : Int
  pid : Int
  parent : Option (Fin nproc)
  kstack : Nat
  sz : Nat
  pagetable : Nat
  trapframe : Nat
  context : Context
  ofile : Fin nofile → Option (Fin nfile)
  cwd : Option (Fin ninode)
  name : List UInt8

structure Kernel where
  mem : Phys
  proc : Fin nproc → Process
  nextpid : Int
  file : Fin nfile → Int
  inode : Fin ninode → Int

abbrev K := EStateM String Kernel

def onMem {α : Type} (m : Vm.M α) : K α := zoom Kernel.mem (fun m k => { k with mem := m }) m

def setProc (i : Fin nproc) (f : Process → Process) : K Unit :=
  modify fun k => { k with proc := update k.proc i (f (k.proc i)) }

def allocpid : K Int := do
  let k ← get
  set { k with nextpid := (k.nextpid + 1).bmod (2 ^ 32) }
  return k.nextpid

section

variable [Layout]

def freeproc (i : Fin nproc) : K Unit := do
  let k ← get
  onMem (if (k.proc i).trapframe ≠ 0 then kfree (k.proc i).trapframe else pure ())
  setProc i fun p => { p with trapframe := 0 }
  onMem (if (k.proc i).pagetable ≠ 0 then procFreepagetable (k.proc i).pagetable (k.proc i).sz else pure ())
  setProc i fun p => { p with
    pagetable := 0, sz := 0, pid := 0, parent := none, name := p.name.set 0 0, chan := 0, killed := 0,
    xstate := 0, state := .unused }

/-- The part of a `struct proc` that the functions of `vm.c` use. -/
def Process.vm (p : Process) : Vm.Proc := ⟨p.pagetable, p.sz, p.trapframe⟩

/-- `allocproc`, when `forkret` is at the given address. -/
def allocproc (forkret : Nat) : K (Option (Fin nproc)) := do
  let k ← get
  match (List.finRange nproc).find? fun i => (k.proc i).state = .unused with
  | none => return none
  | some i =>
    let pid ← allocpid
    setProc i fun p => { p with pid := pid, state := .used }
    match ← onMem kalloc with
    | none =>
      setProc i fun p => { p with trapframe := 0 }
      freeproc i
      return none
    | some tf =>
      setProc i fun p => { p with trapframe := tf }
      let k ← get
      match ← onMem (procPagetable (k.proc i).vm) with
      | none =>
        setProc i fun p => { p with pagetable := 0 }
        freeproc i
        return none
      | some pt =>
        setProc i fun p => { p with pagetable := pt }
        setProc i fun p => { p with context := ⟨forkret, p.kstack + pgsize, fun _ => 0⟩ }
        return some i

def trapframeSize : Nat := 288

def a0 : Fin 512 := 14

def filedup (f : Fin nfile) : K Unit := do
  let k ← get
  if k.file f < 1 then
    throw "filedup"
  set { k with file := update k.file f (k.file f + 1) }

def idup (ip : Fin ninode) : K Unit :=
  modify fun k => { k with inode := update k.inode ip (k.inode ip + 1) }

def dupFiles (p np : Fin nproc) : List (Fin nofile) → K Unit
  | [] => return
  | i :: is => do
    let k ← get
    match (k.proc p).ofile i with
    | none => dupFiles p np is
    | some f =>
      filedup f
      setProc np fun q => { q with ofile := update q.ofile i (some f) }
      dupFiles p np is

def safestrcpy : List UInt8 → List UInt8 → Nat → List UInt8
  | s, _, 0 => s
  | [], _, _ => []
  | _ :: s, [], _ => 0 :: s
  | _ :: s, _ :: _, 1 => 0 :: s
  | _ :: s, c :: t, n + 2 => if c = 0 then 0 :: s.set 0 0 else c :: safestrcpy s t (n + 1)

/-- The rest of `kfork`, when the memory has been copied. -/
def finishFork (p np : Fin nproc) : K Int := do
  let k ← get
  setProc np fun q => { q with sz := (k.proc p).sz }
  onMem <| modify fun m => m.setPage (k.proc np).trapframe fun j =>
    if j < trapframeSize then m.page (k.proc p).trapframe j else m.page (k.proc np).trapframe j
  onMem <| modify fun m => m.setWord (k.proc np).trapframe a0 0
  dupFiles p np (List.finRange nofile)
  match (k.proc p).cwd with
  | none => throw "kerneltrap"
  | some ip =>
    idup ip
    setProc np fun q => { q with cwd := some ip }
    setProc np fun q => { q with name := safestrcpy q.name (k.proc p).name 16 }
    let k ← get
    setProc np fun q => { q with parent := some p }
    setProc np fun q => { q with state := .runnable }
    return (k.proc np).pid

def kfork (forkret : Nat) (p : Fin nproc) : K Int := do
  match ← allocproc forkret with
  | none => return -1
  | some np =>
    let k ← get
    if (← onMem (uvmcopy (k.proc p).pagetable (k.proc np).pagetable (k.proc p).sz)) < 0 then
      freeproc np
      return -1
    else
      finishFork p np

end

section Put

variable {k : Kernel} {i : Fin nproc} {q : Process} {m : Phys} {n : Int}

def Kernel.put (k : Kernel) (i : Fin nproc) (q : Process) (m : Phys) (n : Int) : Kernel :=
  { k with proc := update k.proc i q, mem := m, nextpid := n }

theorem put_proc_self : (k.put i q m n).proc i = q := update_self ..

theorem put_proc_ne {j : Fin nproc} (h : j ≠ i) : (k.put i q m n).proc j = k.proc j := update_of_ne h ..

theorem put_self : k.put i (k.proc i) m n = { k with mem := m, nextpid := n } := by
  rw [Kernel.put, update_eq_self]

theorem setProc_put (f : Process → Process) : setProc i f (k.put i q m n) = .ok ⟨⟩ (k.put i (f q) m n) := by
  show EStateM.Result.ok _ _ = _
  dsimp only [Kernel.put]
  rw [update_self, update_idem]

theorem onMem_modify (f : Phys → Phys) : onMem (modify f) (k.put i q m n) = .ok ⟨⟩ (k.put i q (f m) n) := rfl

theorem idup_put (ip : Fin ninode) : idup ip (k.put i q m n) =
    .ok ⟨⟩ ({ k with inode := update k.inode ip (k.inode ip + 1) }.put i q m n) := rfl

theorem onMem_put {α : Type} {x : Vm.M α} {Q : α → Kernel → Prop} {E : String → Kernel → Prop}
    (h : Ensures x m (fun a m' => Q a (k.put i q m' n)) fun e m' => E e (k.put i q m' n)) :
    Ensures (onMem x) (k.put i q m n) Q E :=
  Ensures.zoom h

end Put

section Free

variable [Layout] {k : Kernel} {i : Fin nproc} {q : Process} {m : Phys} {n : Int}

def Process.freed (p : Process) : Process :=
  { p with
    trapframe := 0, pagetable := 0, sz := 0, pid := 0, parent := none, name := p.name.set 0 0, chan := 0,
    killed := 0, xstate := 0, state := .unused }

theorem freeproc_ensures {R : Phys → Prop} (tf pt sz : Nat) (htf : q.trapframe = tf) (hpt : q.pagetable = pt)
    (hsz : q.sz = sz)
    (h : Completes (if tf ≠ 0 then kfree tf else pure ()) m
      (fun _ m₁ => Completes (if pt ≠ 0 then procFreepagetable pt sz else pure ()) m₁ (fun _ m₂ => R m₂))) :
    Completes (freeproc i) (k.put i q m n) (fun _ k' => ∃ m', R m' ∧ k' = k.put i q.freed m' n) := by
  subst htf hpt hsz
  unfold freeproc
  apply Ensures.bind_get
  rw [put_proc_self]
  apply Ensures.bind
  apply onMem_put
  refine h.post fun _ m₁ h₁ => ?_
  refine Ensures.bind_eq (setProc_put _) ?_
  apply Ensures.bind
  apply onMem_put
  refine h₁.post fun _ m₂ hR => ?_
  unfold Ensures
  rw [setProc_put]
  exact ⟨m₂, hR, rfl⟩

structure Cleared (p : Process) : Prop where
  freed : p.freed = p
  ofile : p.ofile = fun _ => none
  cwd : p.cwd = none

omit [Layout] in
theorem Cleared.null (h : Cleared q) : q.pagetable = 0 ∧ q.trapframe = 0 ∧ q.sz = 0 := by
  have hfreed := h.freed
  rw [← hfreed]
  exact ⟨rfl, rfl, rfl⟩

def Process.prepared (p : Process) (pid : Int) (tf pt forkret : Nat) : Process :=
  { p with
    pid := pid, state := .used, trapframe := tf, pagetable := pt,
    context := ⟨forkret, p.kstack + pgsize, fun _ => 0⟩ }

omit [Layout] in
theorem Cleared.freed_prepared (h : Cleared q) (pid : Int) (tf pt forkret : Nat) :
    (q.prepared pid tf pt forkret).freed = { q with context := ⟨forkret, q.kstack + pgsize, fun _ => 0⟩ } := by
  have hfields : (q.prepared pid tf pt forkret).freed =
      { q.freed with context := ⟨forkret, q.kstack + pgsize, fun _ => 0⟩ } := rfl
  rw [hfields, h.freed]

/-- What `allocproc` does: a slot has got a trapframe and a page table, or nothing but the process number
has changed. -/
def Prepares (forkret : Nat) (k : Kernel) (r : Option (Fin nproc)) (k' : Kernel) : Prop :=
  (r = none ∧ ∃ m n, Taken ∅ k.mem m ∧ k' = { k with mem := m, nextpid := n }) ∨
    ∃ i tf pt m₁ m₂ n, r = some i ∧ (k.proc i).state = .unused ∧ Took tf k.mem m₁ ∧
      Creates tf m₁ (some pt) m₂ ∧ k' = k.put i ((k.proc i).prepared k.nextpid tf pt forkret) m₂ n

theorem allocproc_ensures (forkret : Nat) (heap : FreeList k.mem)
    (hclear : ∀ i, (k.proc i).state = .unused → Cleared (k.proc i)) :
    Completes (allocproc forkret) k (Prepares forkret k) := by
  unfold allocproc
  apply Ensures.bind_get
  cases hfind : (List.finRange nproc).find? fun i => (k.proc i).state = .unused with
  | none => exact .pure (.inl ⟨rfl, k.mem, k.nextpid, .refl heap, rfl⟩)
  | some i =>
    have hunused : (k.proc i).state = .unused := by
      have hi := List.find?_some hfind
      exact of_decide_eq_true hi
    have hcleared := hclear i hunused
    obtain ⟨hpt, -, -⟩ := hcleared.null
    have hstart : allocpid k = .ok k.nextpid (k.put i (k.proc i) k.mem ((k.nextpid + 1).bmod (2 ^ 32))) := by
      rw [put_self]
      rfl
    obtain ⟨n, hn⟩ : ∃ n, n = (k.nextpid + 1).bmod (2 ^ 32) := ⟨_, rfl⟩
    rw [← hn] at hstart
    refine Ensures.bind_eq hstart ?_
    refine Ensures.bind_eq (setProc_put _) ?_
    apply Ensures.bind
    apply onMem_put
    refine (kalloc_took k.mem).post ?_
    rintro r m₁ (⟨rfl, hfree, hpage⟩ | ⟨tf, rfl, htook⟩)
    · have htaken : Taken ∅ k.mem m₁ := by
        refine ⟨⟨hfree ▸ heap.nodup, hfree ▸ heap.frame⟩, fun x => ?_, fun x hx => absurd hx (Set.notMem_empty x),
          fun x _ => congrFun hpage x⟩
        rw [hfree]
        exact (or_iff_left (Set.notMem_empty x)).symm
      refine Ensures.bind_eq (setProc_put _) ?_
      refine (freeproc_ensures (R := fun m => m = m₁) 0 0 _ ?_ ?_ rfl ?_).seq ?_
      · rfl
      · exact hpt
      · rw [if_neg (not_not.mpr rfl), if_neg (not_not.mpr rfl)]
        exact .pure (.pure rfl)
      · rintro _ k' ⟨m', rfl, rfl⟩
        refine .pure (.inl ⟨rfl, m', n, htaken, ?_⟩)
        exact (congrArg (fun q => k.put i q m' n) hcleared.freed).trans put_self
    · obtain ⟨heap₁, hnot, hframe, -⟩ := heap.tail htook.free
      have htaken := (Taken.refl heap).took htook
      refine Ensures.bind_eq (setProc_put _) ?_
      apply Ensures.bind_get
      rw [put_proc_self]
      apply Ensures.bind
      apply onMem_put
      refine (procPagetable_ensures _ heap₁ hframe.lt).post ?_
      intro r m₂ hcreates
      cases r with
      | none =>
        obtain ⟨-, htaken₂⟩ | ⟨pt, hpt, -⟩ := hcreates
        · have htf : tf ∉ m₂.free := fun hc => hnot ((htaken₂.free tf).mpr (.inl hc))
          refine Ensures.bind_eq (setProc_put _) ?_
          refine (freeproc_ensures (R := fun m => Taken ∅ k.mem m) tf 0 _ ?_ ?_ rfl ?_).seq ?_
          · rfl
          · rfl
          · rw [if_pos hframe.ne_zero, if_neg (not_not.mpr rfl)]
            refine (kfree_released hframe htf htaken₂.heap).post fun _ m₃ hrel => .pure ?_
            refine (htaken.trans htaken₂).release hrel ?_ fun x => ?_
            · rintro x rfl
              exact .inl (.inl rfl)
            · refine iff_of_false (Set.notMem_empty x) ?_
              rintro ⟨(hx | hx) | hx, hx'⟩
              · exact hx' hx
              · exact hx
              · exact hx
          · rintro _ k' ⟨m', htaken', rfl⟩
            refine .pure (.inl ⟨rfl, m', n, htaken', ?_⟩)
            exact (congrArg (fun q => k.put i q m' n) hcleared.freed).trans put_self
        · exact absurd hpt (by simp)
      | some pt =>
        refine Ensures.bind_eq (setProc_put _) ?_
        refine Ensures.bind_eq (setProc_put _) ?_
        exact .pure (.inr ⟨i, tf, pt, m₁, m₂, n, rfl, hunused, htook, hcreates, rfl⟩)

end Free

section Memory

variable [Layout] {m m₁ m₂ m₃ : Phys} {p : Vm.Proc} {tf pt : Nat}

theorem taken_of_creates (heap : FreeList m) (htook : Took tf m m₁) (hfresh : Fresh pt m₁ m₂) :
    Taken ({tf} ∪ m₂.space pt) m m₂ ∧ Frame tf ∧ tf ∈ m.free ∧ tf ∉ m₁.free := by
  obtain ⟨-, hnot, hframe, -⟩ := heap.tail htook.free
  have htaken := ((Taken.refl heap).took htook).trans hfresh.taken
  have hf : tf ∈ m.free := by
    rw [htook.free]
    exact List.mem_cons_self
  rw [insert_empty_eq, ← (userPages_bare hfresh.table hfresh.empty).2] at htaken
  exact ⟨htaken, hframe, hf, hnot⟩

theorem separate_of_taken {owned : Set Nat} (hp : ProcSpace m p) (ht : Taken owned m m₂)
    (hsub : ∀ x ∈ m₂.tables pt, x ∈ owned) : Separate m₂ p pt := by
  obtain ⟨-, hlookup, htables⟩ := hp.taken ht
  have hnew : ∀ x ∈ m₂.tables pt, x ∈ m.free := fun x hx => (ht.free x).mpr (.inr (hsub x hx))
  refine ⟨fun x hx hc => ?_, fun b e hb he hc => ?_⟩
  · rw [htables] at hx
    exact hp.table.used x hx (hnew x hc)
  · rw [hlookup] at he
    exact (hp.own.frame b e (Nat.zero_le b) hb he).2.2 (hnew _ hc)

theorem unfork_ensures (heap : FreeList m) (htook : Took tf m m₁) (h : Fresh pt m₁ m₃) :
    Completes (kfree tf) m₃ (fun _ m₄ => Completes (procFreepagetable pt 0) m₄ (fun _ m₅ => Taken ∅ m m₅)) := by
  obtain ⟨htaken, htf, -, hnot⟩ := taken_of_creates heap htook h
  rw [(userPages_bare h.table h.empty).2] at htaken
  have hsub : ∀ x ∈ m₃.tables pt, x ∈ m₁.free := fun x hx => (h.taken.free x).mpr (.inr hx)
  have htab : tf ∉ m₃.tables pt := fun hc => hnot (hsub tf hc)
  have hused : tf ∉ m₃.free := fun hc => hnot ((h.taken.free tf).mpr (.inl hc))
  refine (kfree_released htf hused h.table.heap).post fun _ m₄ hrel => ?_
  have hpages : ∀ x ∈ m₃.tables pt, m₄.page x = m₃.page x := fun x hx => hrel.others x fun hc => htab (hc ▸ hx)
  have hkept : ∀ x ∈ m₃.tables pt, x ∉ m₄.free := by
    intro x hx hc
    obtain hc | hc := (hrel.free x).mp hc
    · exact h.table.used x hx hc
    · exact htab (Set.mem_singleton_iff.mp hc ▸ hx)
  obtain ⟨htable, htables⟩ := h.table.congr hpages hkept hrel.heap
  have hempty : ∀ b, b < trapframeVa → m₄.lookup pt b = none := fun b hb => by
    rw [lookup_congr (hb.trans (by decide)) hpages, h.empty b hb]
  obtain ⟨huser, hspace⟩ := userPages_bare htable hempty
  have hrooted := h.rooted.congr htables (hpages pt Radix.root_mem)
  have htaken₄ : Taken (m₃.tables pt) m m₄ := by
    refine htaken.release hrel (fun x hx => .inl hx) fun x => ?_
    constructor
    · exact fun hx => ⟨.inr hx, fun hc => htab (Set.mem_singleton_iff.mp hc ▸ hx)⟩
    · exact fun hx => hx.1.resolve_left hx.2
  refine (procFreepagetable_ensures (huser 0) hrooted (Nat.zero_le _)).post fun _ m₅ hrel₅ => ?_
  rw [hspace, htables] at hrel₅
  refine htaken₄.release hrel₅ (fun x hx => hx) fun x => ?_
  exact iff_of_false (Set.notMem_empty x) fun hc => hc.2 hc.1

/-- The trapframe of the child: that of the parent, but for `a0`. -/
def forkFrame (m : Phys) (tf src : Nat) : Phys :=
  (m.setPage tf fun j => if j < trapframeSize then m.page src j else m.page tf j).setWord tf a0 0

omit [Layout] in
theorem forkFrame_page_ne {src x : Nat} (hx : x ≠ tf) : (forkFrame m tf src).page x = m.page x := by
  rw [forkFrame, Phys.setWord_page_ne _ _ _ hx, Phys.setPage_page_ne _ _ hx]

omit [Layout] in
theorem forkFrame_word {src : Nat} {i : Fin 512} (hi : i.1 < 36) :
    (forkFrame m tf src).word tf i = if i = a0 then 0 else m.word src i := by
  rw [forkFrame]
  obtain rfl | hia := eq_or_ne i a0
  · rw [if_pos rfl, Phys.word_setWord_self _ _ _ (by decide)]
  · rw [if_neg hia, Phys.word_setWord_ne _ _ fun hc => hia hc.2, Phys.word, Phys.setPage_page_self, Phys.word]
    apply getLE_congr
    intro j _ hj
    have hsize : trapframeSize = 288 := rfl
    rw [if_pos (by omega)]

/-- The memory of the child, when everything has been copied. -/
structure ChildMemory (p : Vm.Proc) (tf pt : Nat) (m m' : Phys) : Prop where
  space : ProcSpace m' ⟨pt, p.sz, tf⟩
  image : ∀ b, b < trapframeVa → m'.image pt b = m.image p.pagetable b
  registers : ∀ i : Fin 512, i.1 < 36 → m'.word tf i = if i = a0 then 0 else m.word p.trapframe i
  taken : Taken ({tf} ∪ m'.space pt) m m'

theorem childMemory_of_filled (hp : ProcSpace m p) (htook : Took tf m m₁) (hfresh : Fresh pt m₁ m₂)
    (hcode : m₂.lookup pt trampolineVa = some (entry trampoline (pteR ||| pteX)))
    (hframe : m₂.lookup pt trapframeVa = some (entry tf (pteR ||| pteW)))
    (hfill : Filled pt 0 (pgRoundUp p.sz) (m₂.image p.pagetable) m₂ m₃) :
    ChildMemory p tf pt m (forkFrame m₃ tf p.trapframe) := by
  obtain ⟨htaken, htf, -, hnot⟩ := taken_of_creates hp.table.heap htook hfresh
  obtain ⟨hp₂, -, -⟩ := hp.taken htaken
  have hperms := image_perms m₂ p.pagetable
  have htop := pgRoundUp_le hp.size
  have hspace₃ : ProcSpace m₃ ⟨pt, p.sz, tf⟩ :=
    (hfresh.procSpace hcode hframe htf hnot hp.size).filled hperms hfill (Nat.le_refl _)
  have htaken₃ := htaken.filled hfill hperms htop fun b _ hb => hfresh.empty b (by omega)
  obtain ⟨hframe₃, htab₃, hused₃⟩ := hspace₃.trapframe
  have hpages : ∀ x ∈ m₃.tables pt, (forkFrame m₃ tf p.trapframe).page x = m₃.page x := fun x hx =>
    forkFrame_page_ne fun hc => htab₃ (hc ▸ hx)
  obtain ⟨hspace₄, hlookup₄, htables₄⟩ := hspace₃.congr hpages
    ⟨hspace₃.table.heap.nodup, hspace₃.table.heap.frame⟩ fun x hx => hx
  refine ⟨hspace₄, fun b hb => ?_, fun i hi => ?_, ?_⟩
  · rw [← hp.image_taken htaken hb, ← Filled.image_eq hp₂ hfresh.empty hfill hb]
    unfold Phys.image
    rw [hlookup₄]
    cases he : m₃.lookup pt b with
    | none => rfl
    | some e => rw [Option.map_some, Option.map_some, forkFrame_page_ne (hspace₃.apart b e hb he)]
  · rw [forkFrame_word hi, Phys.word_congr (htaken₃.others p.trapframe hp.trapframe.2.2)]
  · rw [space_congr htables₄ hlookup₄]
    refine htaken₃.step ⟨hspace₃.table.heap.nodup, hspace₃.table.heap.frame⟩ (fun x hx => hx) (fun x => ?_)
      fun x hx _ => forkFrame_page_ne fun hc => hx (.inl hc)
    exact (or_iff_left fun hc => hc.2 hc.1).symm

end Memory

section Files

variable {k : Kernel} {p np : Fin nproc} {q : Process} {m : Phys} {n : Int} {i : Fin nofile}
  {l : List (Fin nofile)} {ofile : Fin nofile → Option (Fin nfile)}

def Kernel.refsAfter (k : Kernel) (p : Fin nproc) (l : List (Fin nofile)) (f : Fin nfile) : Int :=
  k.file f + l.countP fun i => (k.proc p).ofile i = some f

def Process.withFiles (q : Process) (ofile : Fin nofile → Option (Fin nfile)) (l : List (Fin nofile)) : Process :=
  { q with ofile := fun i => if i ∈ l then (ofile i).or (q.ofile i) else q.ofile i }

theorem refsAfter_cons_none (hi : (k.proc p).ofile i = none) :
    k.refsAfter p (i :: l) = k.refsAfter p l := by
  funext f
  rw [Kernel.refsAfter, Kernel.refsAfter, List.countP_cons_of_neg (by simp [hi])]

theorem refsAfter_cons_some {f : Fin nfile} (hi : (k.proc p).ofile i = some f) :
    k.refsAfter p (i :: l) = { k with file := update k.file f (k.file f + 1) }.refsAfter p l := by
  funext g
  dsimp only [Kernel.refsAfter]
  obtain rfl | hg := eq_or_ne g f
  · rw [List.countP_cons_of_pos (by simp [hi]), update_self]
    push_cast
    omega
  · rw [List.countP_cons_of_neg (by simp [hi, Ne.symm hg]), update_of_ne hg]

theorem withFiles_cons_none (hi : ofile i = none) : q.withFiles ofile (i :: l) = q.withFiles ofile l := by
  unfold Process.withFiles
  congr 1
  funext j
  obtain rfl | hj := eq_or_ne j i
  · rw [if_pos List.mem_cons_self, hi, Option.none_or, ite_self]
  · simp only [List.mem_cons, hj, false_or]

theorem withFiles_cons_some {f : Fin nfile} (hi : ofile i = some f) :
    q.withFiles ofile (i :: l) = { q with ofile := update q.ofile i (some f) }.withFiles ofile l := by
  unfold Process.withFiles
  congr 1
  funext j
  dsimp only
  obtain rfl | hj := eq_or_ne j i
  · rw [if_pos List.mem_cons_self, hi, Option.some_or, Option.some_or, update_self, ite_self]
  · simp only [List.mem_cons, hj, false_or, update_of_ne hj]

theorem dupFiles_put (l : List (Fin nofile)) (hne : p ≠ np)
    (href : ∀ i f, (k.proc p).ofile i = some f → 1 ≤ k.file f) :
    dupFiles p np l (k.put np q m n) =
      .ok ⟨⟩ ({ k with file := k.refsAfter p l }.put np (q.withFiles (k.proc p).ofile l) m n) := by
  induction l generalizing k q with
  | nil =>
    have hfile : k.refsAfter p [] = k.file := by
      funext f
      exact Int.add_zero _
    have hq : q.withFiles (k.proc p).ofile [] = q := by
      simp [Process.withFiles]
    rw [hfile, hq]
    rfl
  | cons i l ih =>
    have hget : ∀ g : Kernel → K Unit, (get >>= g) (k.put np q m n) = g (k.put np q m n) (k.put np q m n) :=
      fun _ => rfl
    rw [dupFiles, hget, put_proc_ne hne]
    cases hi : (k.proc p).ofile i with
    | none =>
      dsimp only
      rw [ih href, refsAfter_cons_none hi, withFiles_cons_none hi]
    | some f =>
      have hdup : filedup f (k.put np q m n) =
          .ok ⟨⟩ ({ k with file := update k.file f (k.file f + 1) }.put np q m n) := by
        have hone : ¬ (k.put np q m n).file f < 1 := Int.not_lt.mpr (href i f hi)
        have hget : ∀ g : Kernel → K Unit, (get >>= g) (k.put np q m n) = g (k.put np q m n) (k.put np q m n) :=
          fun _ => rfl
        rw [filedup, hget, if_neg hone]
        rfl
      dsimp only
      rw [bind_of_ok hdup, bind_of_ok (setProc_put _), ih ?_]
      · rw [refsAfter_cons_some hi, withFiles_cons_some hi]
      · intro j g hg
        have hge := href j g hg
        dsimp only
        by_cases hgf : g = f
        · rw [hgf, update_self]
          exact Int.le_trans (href i f hi) (Int.le_add_of_nonneg_right (by decide))
        · rw [update_of_ne hgf]
          exact hge

def Process.forked (q parent : Process) (p : Fin nproc) : Process :=
  { q.withFiles parent.ofile (List.finRange nofile) with
    sz := parent.sz, cwd := parent.cwd, name := safestrcpy q.name parent.name 16, parent := some p,
    state := .runnable }

theorem finishFork_put {ip : Fin ninode} (hne : p ≠ np)
    (href : ∀ i f, (k.proc p).ofile i = some f → 1 ≤ k.file f) (hcwd : (k.proc p).cwd = some ip) :
    finishFork p np (k.put np q m n) = .ok q.pid
      ({ k with
          file := k.refsAfter p (List.finRange nofile)
          inode := update k.inode ip (k.inode ip + 1) }.put np (q.forked (k.proc p) p)
        (forkFrame m q.trapframe (k.proc p).trapframe) n) := by
  have hget : ∀ (k : Kernel) (g : Kernel → K Int), (get >>= g) k = g k k := fun _ _ => rfl
  rw [finishFork, hget, put_proc_ne hne, put_proc_self, bind_of_ok (setProc_put _), bind_of_ok (onMem_modify _),
    bind_of_ok (onMem_modify _), bind_of_ok (dupFiles_put _ hne href), hcwd]
  dsimp only
  rw [bind_of_ok (idup_put ip), bind_of_ok (setProc_put _), bind_of_ok (setProc_put _), hget, put_proc_self,
    bind_of_ok (setProc_put _), bind_of_ok (setProc_put _), Process.forked, hcwd]
  rfl

end Files

section Fork

variable [Layout] {k : Kernel} {p np : Fin nproc} {forkret : Nat}

/-- A process that may call `fork`. -/
structure Forkable (k : Kernel) (p : Fin nproc) : Prop where
  space : ProcSpace k.mem (k.proc p).vm
  used : (k.proc p).state ≠ .unused
  cleared : ∀ i, (k.proc i).state = .unused → Cleared (k.proc i)
  files : ∀ i f, (k.proc p).ofile i = some f → 1 ≤ k.file f
  cwd : (k.proc p).cwd.isSome = true

structure Child (p np : Fin nproc) (k : Kernel) (pid : Int) (k' : Kernel) : Prop where
  slot : (k.proc np).state = .unused ∧ np ≠ p
  others : ∀ i, i ≠ np → k'.proc i = k.proc i
  ready : (k'.proc np).state = .runnable ∧ (k'.proc np).parent = some p ∧ (k'.proc np).pid = pid
  memory : ChildMemory (k.proc p).vm (k'.proc np).trapframe (k'.proc np).pagetable k.mem k'.mem
  size : (k'.proc np).sz = (k.proc p).sz
  files : (k'.proc np).ofile = (k.proc p).ofile ∧ (k'.proc np).cwd = (k.proc p).cwd
  refs : k'.file = k.refsAfter p (List.finRange nofile) ∧ ∀ ip, k'.inode ip =
    if (k.proc p).cwd = some ip then k.inode ip + 1 else k.inode ip

/-- `fork` has failed and has changed nothing but the saved context of a free slot. -/
structure Unforked (k k' : Kernel) : Prop where
  mem : Taken ∅ k.mem k'.mem
  file : k'.file = k.file
  inode : k'.inode = k.inode
  proc : k'.proc = k.proc ∨ ∃ i ctx, (k.proc i).state = .unused ∧
    k'.proc = update k.proc i { k.proc i with context := ctx }

def Forks (p : Fin nproc) (k : Kernel) (r : Int) (k' : Kernel) : Prop :=
  (r = -1 ∧ Unforked k k') ∨ ∃ np, r = k.nextpid ∧ Child p np k r k'

theorem child_of_forked {q : Process} {m : Phys} {n : Int} {ip : Fin ninode}
    (hslot : (k.proc np).state = .unused ∧ np ≠ p) (hfiles : q.ofile = fun _ => none)
    (hcwd : (k.proc p).cwd = some ip) (hchild : ChildMemory (k.proc p).vm q.trapframe q.pagetable k.mem m) :
    Child p np k q.pid ({ k with
      file := k.refsAfter p (List.finRange nofile)
      inode := update k.inode ip (k.inode ip + 1) }.put np (q.forked (k.proc p) p) m n) where
  slot := hslot
  others i hi := put_proc_ne hi
  ready := by
    rw [put_proc_self]
    exact ⟨rfl, rfl, rfl⟩
  memory := by
    rw [put_proc_self]
    exact hchild
  size := by
    rw [put_proc_self]
    rfl
  files := by
    rw [put_proc_self]
    refine ⟨?_, rfl⟩
    funext i
    dsimp only [Process.forked, Process.withFiles]
    rw [if_pos (List.mem_finRange i), hfiles, Option.or_none]
  refs := by
    refine ⟨rfl, fun jp => ?_⟩
    dsimp only [Kernel.put]
    by_cases hj : jp = ip
    · rw [hj, update_self, if_pos hcwd]
    · rw [update_of_ne hj, if_neg fun hc => hj (Option.some.inj (hc.symm.trans hcwd))]

theorem kfork_ensures (hk : Forkable k p) :
    Completes (kfork forkret p) k (Forks p k) := by
  have heap := hk.space.table.heap
  unfold kfork
  refine (allocproc_ensures forkret heap hk.cleared).seq ?_
  rintro r k₁ (⟨rfl, m, n, htaken, rfl⟩ | ⟨np, tf, pt, m₁, m₂, n, rfl, hunused, htook, hcreates, rfl⟩)
  · exact .pure (.inl ⟨rfl, htaken, rfl, rfl, .inl rfl⟩)
  · have hcleared := hk.cleared np hunused
    have hne : p ≠ np := fun hc => hk.used (hc ▸ hunused)
    obtain ⟨hnone, -⟩ | ⟨pt', hpt, hfresh, hcode, hframe⟩ := hcreates
    · exact absurd hnone (by simp)
    · obtain rfl := Option.some.inj hpt
      obtain ⟨htaken, htf, -, hnot⟩ := taken_of_creates heap htook hfresh
      obtain ⟨hp₂, -, -⟩ := hk.space.taken htaken
      have hsep : Separate m₂ (k.proc p).vm pt := separate_of_taken hk.space htaken fun x hx => .inr (.inl hx)
      apply Ensures.bind_get
      rw [put_proc_self, put_proc_ne hne]
      apply Ensures.bind
      apply onMem_put
      refine (uvmcopy_ensures hp₂ hsep hfresh.table hfresh.empty).post ?_
      rintro r m₃ (⟨rfl, hfill⟩ | ⟨rfl, hdeep⟩)
      · have hchild := childMemory_of_filled hk.space htook hfresh hcode hframe hfill
        rw [if_neg (by decide)]
        obtain ⟨ip, hip⟩ := Option.isSome_iff_exists.mp hk.cwd
        exact Ensures.of_ok (finishFork_put hne hk.files hip)
          (.inr ⟨np, rfl, child_of_forked (q := (k.proc np).prepared k.nextpid tf pt forkret) ⟨hunused, hne.symm⟩
            hcleared.ofile hip hchild⟩)
      · have hfresh₃ : Fresh pt m₁ m₃ := hfresh.grown hdeep.toGrown fun b hb => by
          rw [hdeep.lookup b (hb.trans (by decide)), hfresh.empty b hb]
        have hpt0 : pt ≠ 0 := (hfresh₃.rooted.frame pt Radix.root_mem).ne_zero
        rw [if_pos (by decide)]
        refine (freeproc_ensures (R := fun m => Taken ∅ k.mem m) tf pt 0 ?_ ?_ ?_ ?_).seq ?_
        · rfl
        · rfl
        · exact hcleared.null.2.2
        · rw [if_pos htf.ne_zero, if_pos hpt0]
          exact unfork_ensures heap htook hfresh₃
        · rintro _ k' ⟨m', htaken', rfl⟩
          rw [hcleared.freed_prepared]
          exact .pure (.inl ⟨rfl, htaken', rfl, rfl, .inr ⟨np, _, hunused, rfl⟩⟩)

def Process.pages (q : Process) (m : Phys) : Set Nat := {q.trapframe} ∪ m.space q.pagetable

theorem pages_not_free {q : Process} {m : Phys} (h : ProcSpace m q.vm) : ∀ x ∈ q.pages m, x ∉ m.free := by
  rintro x (rfl | hx | ⟨b, e, hb, hlt, he, rfl⟩)
  · exact h.trapframe.2.2
  · exact h.table.used x hx
  · exact (h.own.frame b e hb hlt he).2.2

theorem Unforked.parent {k' : Kernel} (h : Unforked k k') (hused : (k.proc p).state ≠ .unused) :
    k'.proc p = k.proc p := by
  obtain hp | ⟨i, ctx, hi, hp⟩ := h.proc
  · rw [hp]
  · have hne : p ≠ i := fun hc => hused (hc ▸ hi)
    rw [hp, update_of_ne hne]

omit [Layout] in
theorem setProc_context {f : Process → Process} (i : Fin nproc) (hf : ∀ q, (f q).context = q.context) :
    Returns (setProc i f) k fun _ k' => ∀ j, (k'.proc j).context = (k.proc j).context := by
  apply Ensures.modify
  intro j
  dsimp only
  by_cases hj : j = i
  · rw [hj, update_self, hf]
  · rw [update_of_ne hj]

theorem freeproc_context (i : Fin nproc) :
    Returns (freeproc i) k fun _ k' => ∀ j, (k'.proc j).context = (k.proc j).context := by
  unfold freeproc
  apply Ensures.bind_get
  apply Ensures.bind
  apply Ensures.zoom
  refine (Ensures.any _ _).post fun _ m₁ _ => ?_
  refine (setProc_context i ?_).seq fun _ k₁ h₁ => ?_
  · exact fun _ => rfl
  apply Ensures.bind
  apply Ensures.zoom
  refine (Ensures.any _ _).post fun _ m₂ _ => ?_
  refine (setProc_context i ?_).post fun _ k₂ h₂ j => (h₂ j).trans (h₁ j)
  exact fun _ => rfl

theorem kfork_starved (h : Completes (allocproc forkret) k
      (fun r k₁ => r = some np ∧ Ensures
        (onMem (uvmcopy (k₁.proc p).pagetable (k₁.proc np).pagetable (k₁.proc p).sz)) k₁
        (fun r k₂ => r < 0 ∧ (k₂.proc np).context.ra = forkret) fun _ _ => False)) :
    Returns (kfork forkret p) k fun r k' => r = -1 ∧ (k'.proc np).context.ra = forkret := by
  unfold kfork
  refine h.returns.seq ?_
  rintro r k₁ ⟨rfl, hcopy⟩
  apply Ensures.bind_get
  refine hcopy.returns.seq ?_
  rintro r k₂ ⟨hr, hra⟩
  rw [if_pos hr]
  refine (freeproc_context np).seq fun _ k' hk' => ?_
  exact .pure ⟨rfl, (congrArg Context.ra (hk' np)).trans hra⟩

end Fork

section Small

def slot0 : Fin nproc := ⟨0, by decide⟩

def slot1 : Fin nproc := ⟨1, by decide⟩

def onePage (n : Nat) : Phys :=
  match @copyout smallLayout ⟨0x80023000, pgsize, 0x80022000⟩ 0x80023000 7 [1, 2] (procPhys n) with
  | .ok _ m => m
  | .error _ m => m

theorem onePage_space (n : Nat) (hn : n ≤ 100)
    (hrun : Completes (@procPagetable smallLayout ⟨0, 0, 0x80022000⟩) (freshPages n)
      (fun r _ => r = some 0x80023000)) :
    @ProcSpace smallLayout (onePage n) ⟨0x80023000, pgsize, 0x80022000⟩ := by
  have hspec := @copyoutLoop_ensures smallLayout _ _ 7 [1, 2] 2 (procPhys_space n hn hrun) (Nat.le_refl _) []
  unfold onePage
  cases hm : @copyout smallLayout ⟨0x80023000, pgsize, 0x80022000⟩ 0x80023000 7 [1, 2] (procPhys n) with
  | error e m => exact (hspec.error hm).elim
  | ok r m =>
    obtain ⟨_, _, -, hprog, -⟩ := hspec.ok hm
    exact @Extended.space smallLayout _ _ _ (@Progress.toExtended smallLayout _ _ _ _ _ _ _ _ _ hprog)

def noProcess : Process :=
  ⟨.unused, 0, 0, 0, 0, none, 0, 0, 0, 0, ⟨0, 0, fun _ => 0⟩, fun _ => none, none, List.replicate 16 0⟩

def smallProcess : Process :=
  ⟨.running, 0, 0, 0, 1, none, 0, pgsize, 0x80023000, 0x80022000, ⟨0, 0, fun _ => 0⟩, fun _ => none,
    some ⟨0, by decide⟩, List.replicate 16 0⟩

/-- A process with one page, when there were `n` pages for it. -/
def oneProcess (n : Nat) : Kernel where
  mem := onePage n
  proc := update (fun _ => noProcess) slot0 smallProcess
  nextpid := 2
  file _ := 0
  inode _ := 1

theorem oneProcess_forkable (n : Nat) (hn : n ≤ 100)
    (hrun : Completes (@procPagetable smallLayout ⟨0, 0, 0x80022000⟩) (freshPages n)
      (fun r _ => r = some 0x80023000)) :
    @Forkable smallLayout (oneProcess n) slot0 := by
  have hself : (oneProcess n).proc slot0 = smallProcess := by
    dsimp only [oneProcess]
    rw [update_self]
  refine @Forkable.mk smallLayout _ _ ?_ ?_ ?_ ?_ ?_
  · rw [hself]
    exact onePage_space n hn hrun
  · rw [hself]
    decide
  · intro i hi
    by_cases h0 : i = slot0
    · rw [h0, hself] at hi
      exact absurd hi (by decide)
    · have hother : (oneProcess n).proc i = noProcess := by
        dsimp only [oneProcess]
        rw [update_of_ne h0]
      rw [hother]
      exact ⟨rfl, rfl, rfl⟩
  · intro i f hf
    rw [hself] at hf
    exact absurd hf (by simp [smallProcess])
  · rw [hself]
    rfl

-- the runs below are evaluated in the kernel only
attribute [irreducible] kfork

theorem oneProcess_forks : Completes (@kfork smallLayout 0x80001000 slot0) (oneProcess 13)
    (fun r _ => r = 2 ∧ (onePage 13).view 0x80023000 8 = 2) := by
  decide +kernel

theorem oneProcess_starves : Completes (@allocproc smallLayout 0x80001000) (oneProcess 10)
    (fun r k => r = some slot1 ∧ Ensures
      (onMem (@uvmcopy smallLayout (k.proc slot0).pagetable (k.proc slot1).pagetable (k.proc slot0).sz)) k
      (fun r k' => r < 0 ∧ (k'.proc slot1).context.ra = 0x80001000) fun _ _ => False) := by
  decide +kernel

end Small

end Xv6.Fork
