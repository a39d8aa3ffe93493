import Xv6.LogCommit

namespace Xv6.LogCommit

open Xv6.Lib Xv6.Lib.Words Xv6.BufferCache Function

variable {care : Nat → Prop} {pin : Nat → Nat} {v : Nat → Block} {s : Kernel}

theorem Cached.setLog {held : List (Nat × Nat)} (h : Cached care pin v held s) (lg : Log)
    (hd : lg.dev = s.log.dev) : Cached care pin v held { s with log := lg } := by
  have hold : ∀ i b, Holds { s with log := lg } i b ↔ Holds s i b := by
    intro i b
    simp only [Holds, hd]
  refine ⟨?_, ?_, ?_, h.disk, ?_, ?_, h.locks, h.nodup⟩
  · intro i j b hi hj
    exact h.unique i j b ((hold i b).mp hi) ((hold j b).mp hj)
  · intro i hi
    simpa only [hd] using h.counted i hi
  · intro i b hc hi
    exact h.data i b hc ((hold i b).mp hi)
  · intro b hb
    obtain ⟨i, hi, hv⟩ := h.present b hb
    exact ⟨i, (hold i b).mpr hi, hv⟩
  · intro i b hm
    obtain ⟨hi, hv, hl⟩ := h.own i b hm
    exact ⟨(hold i b).mpr hi, hv, hl⟩

theorem bread_two_ensures (h : Cached care pin v [] s) {a b : Nat} (ha : care a) (hb : care b) (hab : b ≠ a)
    {f : Nat → Nat → K PUnit} {Q : PUnit → Kernel → Prop} {E : Stop → Kernel → Prop}
    (hE : ∀ e t, Frame s t → E e t)
    (hf : ∀ i j t, Cached care pin v [(j, b), (i, a)] t → Frame s t → Ensures (f i j) t Q E) :
    Ensures (do let i ← bread s.log.dev a; let j ← bread s.log.dev b; f i j) s Q E := by
  apply Ensures.bind
  refine (bread_ensures h ha (by simp)).imp ?_ (fun e t ht => hE e t (ht ▸ Frame.refl s))
  intro i t ⟨ht, hft⟩
  apply Ensures.bind
  rw [← hft.2.2]
  refine (bread_ensures ht hb (by simpa using hab)).imp ?_ (fun e u hu => hE e u (hu ▸ hft))
  intro j u ⟨hu, hfu⟩
  exact hf i j u hu (hft.trans hfu)

structure Wrote (care : Nat → Prop) (pin : Nat → Nat) (v : Nat → Block) (dst : Nat) (x : Block)
    (s t : Kernel) : Prop where
  cached : Cached care pin (update v dst x) [] t
  disk : t.disk = update s.disk dst x
  power : t.power + 1 = s.power
  log : t.log = s.log

def Unwritten (s t : Kernel) : Prop := t.disk = s.disk ∧ t.power = s.power

theorem writeLog_body (h : Cached care pin v [] s) {a b : Nat} (ha : care a) (hb : care b) (hab : b ≠ a) :
    Ensures (do
      let toBuf ← bread s.log.dev a
      let fromBuf ← bread s.log.dev b
      let t ← get
      setData toBuf (t.buf fromBuf).data
      bwrite toBuf
      brelse fromBuf
      brelse toBuf) s (fun _ t => Wrote care pin v a (v b) s t) (fun _ t => Unwritten s t) := by
  refine bread_two_ensures h ha hb hab (fun e t ht => ⟨ht.1, ht.2.1⟩) ?_
  intro i j t ht hft
  have hdata : (t.buf j).data = v b := ht.data j b hb (ht.own j b (by simp)).1 (ht.own j b (by simp)).2.1
  apply Ensures.bind_get
  rw [hdata]
  apply Ensures.bind_modify
  have hw := ht.write (i := i) (b := a) (by simp) (v b)
  apply Ensures.bind
  refine (bwrite_ensures hw (i := i) ha (by simp)).imp ?_ (fun _ u hu => hu.1 ▸ ⟨hft.1, hft.2.1⟩)
  intro _ u ⟨hu, hdisk, hpow, hlog, _⟩
  apply Ensures.bind
  refine (brelse_ensures hu (i := j) (b := b) (by simp) ?_).imp ?_ (fun _ _ hf => hf.elim)
  · intro hpb
    rw [hdisk, update_of_ne hab, update_of_ne hab]
    exact (congrFun hft.1 b).trans (h.disk b hb hpb (by simp))
  intro _ w ⟨hcw, hfw⟩
  have herase : ([(j, b), (i, a)] : List (Nat × Nat)).erase (j, b) = [(i, a)] := by simp
  rw [herase] at hcw
  refine (brelse_ensures hcw (i := i) (b := a) (by simp) ?_).imp ?_ (fun _ _ hf => hf.elim)
  · intro _
    rw [hfw.1, hdisk, update_self]
  intro _ x ⟨hcx, hfx⟩
  refine ⟨by simpa using hcx, ?_, ?_, ?_⟩
  · rw [hfx.1, hfw.1, hdisk, update_self]
    exact congrArg (fun d => update d a (v b)) hft.1
  · rw [hfx.2.1, hfw.2.1, hpow]
    exact hft.2.1
  · rw [hfx.2.2, hfw.2.2, hlog]
    exact hft.2.2

/-- The pins after an installed block: `bunpin` only runs when not recovering. -/
def unpinned (recovering : Bool) (pin : Nat → Nat) (b : Nat) : Nat → Nat :=
  if recovering then pin else update pin b 0

theorem bunpin_unless {held : List (Nat × Nat)} (h : Cached care pin v held s) {i b : Nat}
    (hm : (i, b) ∈ held) (recovering : Bool) (hp : recovering = false → pin b = 1) :
    Completes (if recovering then pure ⟨⟩ else bunpin i : K PUnit) s
      (fun _ t => Cached care (unpinned recovering pin b) v held t ∧ Frame s t) := by
  cases recovering with
  | true => exact .pure ⟨h, Frame.refl s⟩
  | false => exact bunpin_ensures h hm (hp rfl)

theorem installTrans_body (recovering : Bool) (h : Cached care pin v [] s) {a b : Nat} (ha : care a)
    (hb : care b) (hab : b ≠ a) (hp : recovering = false → pin b = 1) :
    Ensures (do
      let lbuf ← bread s.log.dev a
      let dbuf ← bread s.log.dev b
      let t ← get
      setData dbuf (t.buf lbuf).data
      bwrite dbuf
      (if recovering then pure ⟨⟩ else bunpin dbuf)
      brelse lbuf
      brelse dbuf) s (fun _ t => Wrote care (unpinned recovering pin b) v b (v a) s t)
        (fun _ t => Unwritten s t) := by
  refine bread_two_ensures h ha hb hab (fun e t ht => ⟨ht.1, ht.2.1⟩) ?_
  intro i j t ht hft
  have hdata : (t.buf i).data = v a := ht.data i a ha (ht.own i a (by simp)).1 (ht.own i a (by simp)).2.1
  apply Ensures.bind_get
  rw [hdata]
  apply Ensures.bind_modify
  have hw := ht.write (i := j) (b := b) (by simp) (v a)
  apply Ensures.bind
  refine (bwrite_ensures hw (i := j) hb (by simp)).imp ?_ (fun _ u hu => hu.1 ▸ ⟨hft.1, hft.2.1⟩)
  intro _ u ⟨hu, hdisk, hpow, hlog, _⟩
  apply Ensures.bind
  refine (bunpin_unless hu (i := j) (b := b) (by simp) recovering hp).imp ?_ (fun _ _ hf => hf.elim)
  intro _ w ⟨hcw, hfw⟩
  apply Ensures.bind
  refine (brelse_ensures hcw (i := i) (b := a) (by simp) ?_).imp ?_ (fun _ _ hf => hf.elim)
  · intro hpa
    have hpa' : pin a = 0 := by
      cases recovering with
      | true => exact hpa
      | false => simpa [unpinned, Ne.symm hab] using hpa
    rw [hfw.1, hdisk, update_of_ne (Ne.symm hab), update_of_ne (Ne.symm hab)]
    exact (congrFun hft.1 a).trans (h.disk a ha hpa' (by simp))
  intro _ x ⟨hcx, hfx⟩
  have hne : (j, b) ≠ (i, a) := fun he => hab (congrArg Prod.snd he)
  have herase : ([(j, b), (i, a)] : List (Nat × Nat)).erase (i, a) = [(j, b)] := by
    rw [List.erase_cons_tail (by simpa using hne)]
    simp
  rw [herase] at hcx
  refine (brelse_ensures hcx (i := j) (b := b) (by simp) ?_).imp ?_ (fun _ _ hf => hf.elim)
  · intro _
    rw [hfx.1, hfw.1, hdisk, update_self]
  intro _ y ⟨hcy, hfy⟩
  refine ⟨by simpa using hcy, ?_, ?_, ?_⟩
  · rw [hfy.1, hfx.1, hfw.1, hdisk, update_self]
    exact congrArg (fun d => update d b (v a)) hft.1
  · rw [hfy.2.1, hfx.2.1, hfw.2.1, hpow]
    exact hft.2.1
  · rw [hfy.2.2, hfx.2.2, hfw.2.2, hlog]
    exact hft.2.2

theorem writeHead_ensures (h : Cached care pin v [] s) (hs : care s.log.start) :
    Ensures writeHead s
      (fun _ t => Wrote care pin v s.log.start (putHead s.log.lh (v s.log.start)) s t)
      (fun _ t => Unwritten s t) := by
  unfold writeHead
  apply Ensures.bind_get
  apply Ensures.bind
  refine (bread_ensures h hs (by simp)).imp ?_ (fun _ t ht => ht ▸ ⟨rfl, rfl⟩)
  intro i t ⟨ht, hft⟩
  obtain ⟨ho, hv, _⟩ := ht.own i s.log.start (by simp)
  apply Ensures.bind_get
  rw [ht.data i s.log.start hs ho hv]
  apply Ensures.bind_modify
  have hw := ht.write (i := i) (b := s.log.start) (by simp) (putHead s.log.lh (v s.log.start))
  apply Ensures.bind
  refine (bwrite_ensures hw (i := i) hs (by simp)).imp ?_
    (fun _ u hu => hu.1 ▸ ⟨hft.1, hft.2.1⟩)
  intro _ u ⟨hu, hdisk, hpow, hlog, _⟩
  rw [update_self] at hdisk
  refine (brelse_ensures hu (i := i) (b := s.log.start) (by simp) ?_).imp ?_ (fun _ _ hf => hf.elim)
  · intro _
    rw [hdisk, update_self, update_self]
  intro _ w ⟨hcw, hfw⟩
  refine ⟨by simpa using hcw, ?_, ?_, ?_⟩
  · rw [hfw.1, hdisk]
    exact congrArg (fun d => update d s.log.start _) hft.1
  · rw [hfw.2.1, hpow]
    exact hft.2.1
  · rw [hfw.2.2, hlog]
    exact hft.2.2

def loadHead (lh : LogHeader) (b : Block) : LogHeader :=
  ⟨headN b, fun i => if (i : Int) < headN b then headBlock b i else lh.block i⟩

theorem readHead_ensures (h : Cached care pin v [] s) (hs : care s.log.start) (hp : pin s.log.start = 0) :
    Ensures readHead s
      (fun _ t => Cached care pin v [] t ∧ Unwritten s t ∧
        t.log = { s.log with lh := loadHead s.log.lh (v s.log.start) })
      (fun _ t => Unwritten s t) := by
  unfold readHead
  apply Ensures.bind_get
  apply Ensures.bind
  refine (bread_ensures h hs (by simp)).imp ?_ (fun _ t ht => ht ▸ ⟨rfl, rfl⟩)
  intro i t ⟨ht, hft⟩
  obtain ⟨ho, hv, _⟩ := ht.own i s.log.start (by simp)
  apply Ensures.bind_get
  rw [ht.data i s.log.start hs ho hv]
  apply Ensures.bind_modify
  have hset := Cached.setLog ht { t.log with lh := loadHead t.log.lh (v s.log.start) } rfl
  refine (brelse_ensures hset (i := i) (b := s.log.start) (by simp) ?_).imp ?_ (fun _ _ hf => hf.elim)
  · intro _
    exact (congrFun hft.1 _).trans (h.disk _ hs hp (by simp))
  intro _ u ⟨hu, hfu⟩
  refine ⟨by simpa using hu, ⟨hfu.1.trans hft.1, hfu.2.1.trans hft.2.1⟩, ?_⟩
  rw [hfu.2.2, hft.2.2]

end Xv6.LogCommit
