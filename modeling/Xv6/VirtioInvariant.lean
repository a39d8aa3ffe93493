import Xv6.VirtioDisk
import Xv6.Lib.Ring
import Xv6.Lib.Ownership
import Mathlib.Data.List.Perm.Subperm

namespace Xv6.Virtio

open Xv6.Lib

variable {ι β : Type} [DecidableEq β]

inductive Stage where
  | idle
  | requested (write : Bool) (sector : Nat)
  | completed
  | cleared
  deriving DecidableEq

def Stage.next (b : β) (e : Event β) (st : Stage) : Option Stage :=
  match e with
  | .requested c write n => if c = b then if st = .idle then some (.requested write n) else none else some st
  | .completed c write n => if c = b then if st = .requested write n then some .completed else none else some st
  | .cleared c => if c = b then if st = .completed then some .cleared else none else some st
  | .returned c => if c = b then if st = .cleared then some .idle else none else some st

def stage (b : β) : List (Event β) → Option Stage
  | [] => some .idle
  | e :: es => (stage b es).bind (Stage.next b e)

section Stages

variable {b c : β} {es : List (Event β)} {write : Bool} {n : Nat}

theorem stage_requested (h : stage b es = some .idle) :
    stage b (.requested b write n :: es) = some (.requested write n) := by
  simp [stage, h, Stage.next]

theorem stage_completed (h : stage b es = some (.requested write n)) :
    stage b (.completed b write n :: es) = some .completed := by
  simp [stage, h, Stage.next]

theorem stage_cleared (h : stage b es = some .completed) :
    stage b (.cleared b :: es) = some .cleared := by
  simp [stage, h, Stage.next]

theorem stage_returned (h : stage b es = some .cleared) : stage b (.returned b :: es) = some .idle := by
  simp [stage, h, Stage.next]

def Event.buf : Event β → β
  | .requested b _ _ => b
  | .completed b _ _ => b
  | .cleared b => b
  | .returned b => b

theorem stage_other {e : Event β} (h : e.buf ≠ b) : stage b (e :: es) = stage b es := by
  have hnext : Stage.next b e = some := by
    funext st
    cases e <;> exact if_neg h
  rw [stage, hnext, Option.bind_fun_some]

end Stages

namespace Pc

def buf : Pc β → Option β
  | .idle => none
  | .allocating b _ => some b
  | .wantDesc b _ => some b
  | .formatting b _ _ => some b
  | .ringing b _ _ => some b
  | .counting b _ _ => some b
  | .waiting b _ _ => some b
  | .sleeping b _ _ => some b
  | .freeing b _ _ => some b
  | .leaving b => some b

def locked : Pc β → Bool
  | .idle => false
  | .wantDesc _ _ => false
  | .sleeping _ _ _ => false
  | _ => true

def head : Pc β → Option Nat
  | .waiting _ _ i => some i.i0
  | .sleeping _ _ i => some i.i0
  | _ => none

end Pc

def Idx.entry (i : Idx) : Fin 3 → Nat
  | 0 => i.i0
  | 1 => i.i1
  | 2 => i.i2

def Idx.Distinct (i : Idx) : Prop := i.i1 ≠ i.i0 ∧ i.i2 ≠ i.i0 ∧ i.i2 ≠ i.i1

/-- The descriptors a process has allocated and not yet freed, by their place in its chain. -/
def Pc.owns : Pc β → Fin 3 → Option Nat
  | .formatting _ _ i, k => some (i.entry k)
  | .ringing _ _ i, k => some (i.entry k)
  | .counting _ _ i, k => some (i.entry k)
  | .waiting _ _ i, k => some (i.entry k)
  | .sleeping _ _ i, k => some (i.entry k)
  | .freeing _ i j, k => if j = i.i0 ∨ j = i.i1 ∧ k.val ≠ 0 ∨ j = i.i2 ∧ k.val = 2 then some (i.entry k) else none
  | _, _ => none

theorem owners_ext {f g : Fin 3 → Option Nat} (h0 : f 0 = g 0) (h1 : f 1 = g 1) (h2 : f 2 = g 2) : f = g :=
  funext fun
    | 0 => h0
    | 1 => h1
    | 2 => h2

def Sys.ptr (s : Sys ι β) (x : ι × Fin 3) : Option Nat := (s.pc x.1).owns x.2

/-- The chains made available that the device has not served yet. -/
def Sys.asked (s : Sys ι β) (availQ : List Nat) : List Nat := availQ ++ s.dev.taken

/-- The chains served that `virtio_disk_intr` has not seen yet. -/
def Sys.answered (s : Sys ι β) (usedQ : List Nat) : List Nat := s.dev.served ++ s.dev.ringed.toList ++ usedQ

/-- The chain at `i` asks for a transfer of buffer `b`. -/
structure Formatted (s : Sys ι β) (b : β) (write : Bool) (i : Idx) : Prop where
  desc0 : s.disk.desc i.i0 = ⟨.op i.i0, 16, fNext, i.i1⟩
  desc1 : s.disk.desc i.i1 = ⟨.data b, bsize, (if write then 0 else fWrite) ||| fNext, i.i2⟩
  desc2 : s.disk.desc i.i2 = ⟨.status i.i0, 1, fWrite, 0⟩
  op : s.disk.ops i.i0 = ⟨if write then blkTOut else blkTIn, 0, sector (s.blockno b)⟩
  info : (s.disk.info i.i0).b = some b

/-- A request of a waiting process is with the device, or served, or reported. -/
inductive Underway (s : Sys ι β) (A C : List Nat) (b : β) (write : Bool) (h : Nat) : Prop
  | asked (hA : h ∈ A) (hC : h ∉ C) (hbusy : s.busy b = true)
      (hst : stage b s.events = some (.requested write (sector (s.blockno b))))
  | answered (hA : h ∉ A) (hC : h ∈ C) (hbusy : s.busy b = true) (hst : stage b s.events = some .completed)
      (hstatus : (s.disk.info h).status = 0)
  | cleared (hA : h ∉ A) (hC : h ∉ C) (hbusy : s.busy b = false) (hst : stage b s.events = some .cleared)

def Linked (d : Disk β) (i j : Nat) : Prop := (d.desc i).flags &&& fNext ≠ 0 ∧ (d.desc i).next = j

def Last (d : Disk β) (i : Nat) : Prop := (d.desc i).flags &&& fNext = 0

/-- The descriptors that `free_chain` still has to free are linked up to the last one. -/
inductive Freeing (d : Disk β) (i : Idx) : Nat → Prop
  | first (h0 : Linked d i.i0 i.i1) (h1 : Linked d i.i1 i.i2) (h2 : Last d i.i2) : Freeing d i i.i0
  | second (h1 : Linked d i.i1 i.i2) (h2 : Last d i.i2) : Freeing d i i.i1
  | third (h2 : Last d i.i2) : Freeing d i i.i2

/-- What holds for a process at each point of `virtio_disk_rw`. -/
def Doing (s : Sys ι β) (A C : List Nat) : Pc β → Prop
  | .idle => True
  | .allocating b _ => stage b s.events = some .idle
  | .wantDesc b _ => stage b s.events = some .idle
  | .formatting b _ _ => stage b s.events = some .idle
  | .ringing b write i => Formatted s b write i ∧ s.busy b = true ∧ stage b s.events = some .idle
  | .counting b write i => Formatted s b write i ∧ s.busy b = true ∧ stage b s.events = some .idle ∧
      s.disk.availRing (s.disk.availIdx % num) = i.i0
  | .waiting b write i => Formatted s b write i ∧ Underway s A C b write i.i0
  | .sleeping b write i => Formatted s b write i ∧ Underway s A C b write i.i0
  | .freeing b i j => i.Distinct ∧ Freeing s.disk i j ∧ stage b s.events = some .cleared
  | .leaving b => stage b s.events = some .cleared

structure Inv (s : Sys ι β) (availQ usedQ : List Nat) : Prop where
  fine : s.panicked = none
  locked : ∀ p, (s.pc p).locked = true → s.lock = some (.proc p)
  buffers : ∀ p q b, (s.pc p).buf = some b → (s.pc q).buf = some b → p = q
  owned : Owned (fun d => num ≤ d) (fun d => s.disk.free d = false) s.ptr
  avail : RingHolds (2 ^ 16) num s.disk.availRing s.dev.idx s.disk.availIdx availQ
  used : RingHolds (2 ^ 16) num s.disk.usedRing s.disk.usedIdx s.disk.usedRingIdx usedQ
  ringed : ∀ h ∈ s.dev.ringed, s.disk.usedRing (s.disk.usedRingIdx % num) = h
  nodup : (s.asked availQ ++ s.answered usedQ).Nodup
  heads : ∀ h ∈ s.asked availQ ++ s.answered usedQ, ∃ p, (s.pc p).head = some h
  doing : ∀ p, Doing s (s.asked availQ) (s.answered usedQ) (s.pc p)
  quiet : ∀ b, (∀ p, (s.pc p).buf ≠ some b) → stage b s.events = some .idle

variable {s t : Sys ι β} {availQ usedQ A A' C C' : List Nat} {p q : ι} {b : β} {write : Bool} {i : Idx}
  {c : Pc β}

theorem Doing.congr (h : Doing s A C c)
    (hdesc : ∀ k d, c.owns k = some d →
      t.disk.desc d = s.disk.desc d ∧ t.disk.ops d = s.disk.ops d ∧ t.disk.info d = s.disk.info d)
    (hbuf : ∀ b, c.buf = some b → t.busy b = s.busy b ∧ stage b t.events = stage b s.events)
    (hblock : t.blockno = s.blockno)
    (hhead : ∀ h, c.head = some h → (h ∈ A' ↔ h ∈ A) ∧ (h ∈ C' ↔ h ∈ C))
    (hslot : c.locked = true → t.disk.availRing = s.disk.availRing ∧ t.disk.availIdx = s.disk.availIdx) :
    Doing t A' C' c := by
  have hformat : ∀ {b write i}, (∀ k, c.owns k = some (i.entry k)) → Formatted s b write i →
      Formatted t b write i := by
    intro b write i ho hf
    obtain ⟨hd0, ho0, hi0⟩ := hdesc 0 _ (ho 0)
    refine ⟨hd0.trans hf.desc0, (hdesc 1 _ (ho 1)).1.trans hf.desc1, (hdesc 2 _ (ho 2)).1.trans hf.desc2,
      ?_, (congrArg Info.b hi0).trans hf.info⟩
    rw [hblock]
    exact ho0.trans hf.op
  have hunder : ∀ {b write h}, c.buf = some b → c.owns 0 = some h → c.head = some h →
      Underway s A C b write h → Underway t A' C' b write h := by
    intro b write h hb ho hh hu
    obtain ⟨hA, hC⟩ := hhead h hh
    obtain ⟨hbusy, hst⟩ := hbuf b hb
    have hinfo := (hdesc 0 h ho).2.2
    cases hu with
    | asked h1 h2 h3 h4 =>
      exact .asked (hA.mpr h1) (mt hC.mp h2) (hbusy.trans h3) (by rw [hst, hblock]; exact h4)
    | answered h1 h2 h3 h4 h5 =>
      exact .answered (mt hA.mp h1) (hC.mpr h2) (hbusy.trans h3) (hst.trans h4) (by rw [hinfo]; exact h5)
    | cleared h1 h2 h3 h4 => exact .cleared (mt hA.mp h1) (mt hC.mp h2) (hbusy.trans h3) (hst.trans h4)
  cases c with
  | idle => trivial
  | allocating b write | wantDesc b write | formatting b write i | leaving b => exact (hbuf b rfl).2.trans h
  | ringing b write i =>
    exact ⟨hformat (fun _ => rfl) h.1, (hbuf b rfl).1.trans h.2.1, (hbuf b rfl).2.trans h.2.2⟩
  | counting b write i =>
    obtain ⟨hring, hidx⟩ := hslot rfl
    refine ⟨hformat (fun _ => rfl) h.1, (hbuf b rfl).1.trans h.2.1, (hbuf b rfl).2.trans h.2.2.1, ?_⟩
    rw [hring, hidx]
    exact h.2.2.2
  | waiting b write i | sleeping b write i => exact ⟨hformat (fun _ => rfl) h.1, hunder rfl rfl rfl h.2⟩
  | freeing b i j =>
    refine ⟨h.1, ?_, (hbuf b rfl).2.trans h.2.2⟩
    have hd : ∀ k, (Pc.freeing b i j).owns k = some (i.entry k) →
        t.disk.desc (i.entry k) = s.disk.desc (i.entry k) := fun k hk => (hdesc k _ hk).1
    cases h.2.1 with
    | first h0 h1 h2 =>
      have e0 : t.disk.desc i.i0 = s.disk.desc i.i0 := hd 0 (by simp [Pc.owns])
      have e1 : t.disk.desc i.i1 = s.disk.desc i.i1 := hd 1 (by simp [Pc.owns])
      have e2 : t.disk.desc i.i2 = s.disk.desc i.i2 := hd 2 (by simp [Pc.owns])
      exact .first (by rwa [Linked, e0]) (by rwa [Linked, e1]) (by rwa [Last, e2])
    | second h1 h2 =>
      have e1 : t.disk.desc i.i1 = s.disk.desc i.i1 := hd 1 (by simp [Pc.owns])
      have e2 : t.disk.desc i.i2 = s.disk.desc i.i2 := hd 2 (by simp [Pc.owns])
      exact .second (by rwa [Linked, e1]) (by rwa [Last, e2])
    | third h2 =>
      have e2 : t.disk.desc i.i2 = s.disk.desc i.i2 := hd 2 (by simp [Pc.owns])
      exact .third (by rwa [Last, e2])

omit [DecidableEq β] in
theorem Pc.head_owns {h : Nat} (hh : c.head = some h) : c.owns 0 = some h := by
  cases c <;> simp_all [Pc.head, Pc.owns, Idx.entry]

namespace Inv

theorem alone (h : Inv s availQ usedQ) (hl : s.lock = none ∨ s.lock = some (.proc p)) (hq : q ≠ p) :
    (s.pc q).locked = false := by
  by_contra hc
  have hq' := h.locked q (by simpa using hc)
  rw [hq'] at hl
  simp [hq] at hl

variable {d : Nat}

theorem owner (h : Inv s availQ usedQ) {k k' : Fin 3} (hp : (s.pc p).owns k = some d)
    (hq : (s.pc q).owns k' = some d) : p = q ∧ k = k' := by
  have := h.owned.once (i := (p, k)) (j := (q, k')) hp hq
  exact ⟨congrArg Prod.fst this, congrArg Prod.snd this⟩

theorem lt_num (h : Inv s availQ usedQ) {k : Fin 3} (hp : (s.pc p).owns k = some d) : d < num :=
  Nat.not_le.mp (h.owned.apart (i := (p, k)) hp)

theorem head_lt (h : Inv s availQ usedQ) (hd : d ∈ s.asked availQ ++ s.answered usedQ) : d < num := by
  obtain ⟨p, hp⟩ := h.heads d hd
  exact h.lt_num (Pc.head_owns hp)

theorem fresh_head (h : Inv s availQ usedQ) (ho : (s.pc p).owns 0 = some d)
    (hh : (s.pc p).head = none) : d ∉ s.asked availQ ++ s.answered usedQ := by
  intro hd
  obtain ⟨q, hq⟩ := h.heads d hd
  obtain ⟨rfl, -⟩ := h.owner ho (Pc.head_owns hq)
  rw [hh] at hq
  cases hq

theorem length_le_num {l : List Nat} (hnd : l.Nodup) (hlt : ∀ d ∈ l, d < num) : l.length ≤ num := by
  have hsub : l ⊆ List.range num := fun d hd => List.mem_range.mpr (hlt d hd)
  simpa using (List.subperm_of_subset hnd hsub).length_le

theorem entry_ne (h : Inv s availQ usedQ) (ho : ∀ k, (s.pc p).owns k = some (i.entry k)) :
    i.Distinct := by
  have hne : ∀ k k', k ≠ k' → i.entry k ≠ i.entry k' := by
    intro k k' hk he
    exact hk (h.owner (ho k) (he ▸ ho k')).2
  exact ⟨hne 1 0 (by decide), hne 2 0 (by decide), hne 2 1 (by decide)⟩

theorem room (h : Inv s availQ usedQ) {l : List Nat} (hnd : (l ++ [d]).Nodup)
    (hsub : ∀ x ∈ l, x ∈ s.asked availQ ++ s.answered usedQ) (hd : d < num) : l.length < num := by
  have hlen := length_le_num hnd (fun x hx => ?_)
  · rw [List.length_append, List.length_singleton] at hlen
    omega
  · obtain hx | hx := List.mem_append.mp hx
    · exact h.head_lt (hsub x hx)
    · exact (List.mem_singleton.mp hx) ▸ hd

theorem room_avail (h : Inv s availQ usedQ) (ho : (s.pc p).owns 0 = some i.i0) (hh : (s.pc p).head = none) :
    availQ.length < num := by
  have hfresh := h.fresh_head ho hh
  have hsub : ∀ x ∈ availQ, x ∈ s.asked availQ ++ s.answered usedQ := fun x hx => by
    simp [Sys.asked, hx]
  refine h.room (d := i.i0) ?_ hsub (h.lt_num ho)
  rw [List.nodup_append]
  refine ⟨h.nodup.sublist ?_, by simp, ?_⟩
  · rw [Sys.asked, List.append_assoc]
    exact List.sublist_append_left ..
  · rintro x hx y hy rfl
    exact hfresh (hsub _ ((List.mem_singleton.mp hy) ▸ hx))

theorem room_used (h : Inv s availQ usedQ) (hd : d ∈ s.dev.served ∨ s.dev.ringed = some d) :
    usedQ.length < num := by
  have hin : d ∈ s.dev.served ++ s.dev.ringed.toList := by
    obtain hd | hd := hd
    · exact List.mem_append_left _ hd
    · exact List.mem_append_right _ (by simp [hd])
  have hsub : ∀ x ∈ usedQ, x ∈ s.asked availQ ++ s.answered usedQ := fun x hx => by
    simp [Sys.answered, hx]
  have hnd : (s.dev.served ++ s.dev.ringed.toList ++ usedQ).Nodup :=
    h.nodup.sublist (List.sublist_append_right ..)
  refine h.room (d := d) ?_ hsub (h.head_lt (List.mem_append_right _ (List.mem_append_left _ hin)))
  rw [List.nodup_append] at hnd ⊢
  refine ⟨hnd.2.1, by simp, ?_⟩
  rintro x hx y hy rfl
  exact hnd.2.2 d hin d ((List.mem_singleton.mp hy) ▸ hx) rfl

end Inv

end Xv6.Virtio
