import Xv6.VirtioSteps
import Mathlib.Data.Fintype.Basic

namespace Xv6.Virtio

open Xv6.Lib Function

variable {ι β : Type} [DecidableEq β] {s t : Sys ι β} {availQ availQ' usedQ usedQ' : List Nat}
  {p : ι} {b : β} {write : Bool} {i : Idx} {d : Nat}

theorem Inv.remote (h : Inv s availQ usedQ) (hpc : t.pc = s.pc) (hfine : t.panicked = s.panicked)
    (hlock : ∀ p, (s.pc p).locked = true → t.lock = some (.proc p)) (hfree : t.disk.free = s.disk.free)
    (havail : RingHolds (2 ^ 16) num t.disk.availRing t.dev.idx t.disk.availIdx availQ')
    (hused : RingHolds (2 ^ 16) num t.disk.usedRing t.disk.usedIdx t.disk.usedRingIdx usedQ')
    (hringed : ∀ d ∈ t.dev.ringed, t.disk.usedRing (t.disk.usedRingIdx % num) = d)
    (hnodup : (t.asked availQ' ++ t.answered usedQ').Nodup)
    (hsub : ∀ d ∈ t.asked availQ' ++ t.answered usedQ', d ∈ s.asked availQ ++ s.answered usedQ)
    (hdoing : ∀ p, Doing t (t.asked availQ') (t.answered usedQ') (s.pc p))
    (hstage : ∀ b, (∀ p, (s.pc p).buf ≠ some b) → stage b t.events = stage b s.events) :
    Inv t availQ' usedQ' := by
  have hptr : t.ptr = s.ptr := by
    funext x
    rw [Sys.ptr, Sys.ptr, hpc]
  constructor
  · exact hfine.trans h.fine
  · rw [hpc]
    exact hlock
  · rw [hpc]
    exact h.buffers
  · rw [hptr, hfree]
    exact h.owned
  · exact havail
  · exact hused
  · exact hringed
  · exact hnodup
  · intro d hd
    rw [hpc]
    exact h.heads d (hsub d hd)
  · rw [hpc]
    exact hdoing
  · intro b hb
    rw [hpc] at hb
    exact (hstage b hb).trans (h.quiet b hb)

theorem Inv.shift (h : Inv s availQ usedQ) (hpc : t.pc = s.pc) (hfine : t.panicked = s.panicked)
    (hlock : t.lock = s.lock) (hbufs : t.busy = s.busy ∧ t.blockno = s.blockno ∧ t.events = s.events)
    (hfree : t.disk.free = s.disk.free)
    (hdesc : t.disk.desc = s.disk.desc ∧ t.disk.ops = s.disk.ops ∧ t.disk.info = s.disk.info)
    (hring : t.disk.availRing = s.disk.availRing ∧ t.disk.availIdx = s.disk.availIdx)
    (havail : RingHolds (2 ^ 16) num t.disk.availRing t.dev.idx t.disk.availIdx availQ')
    (hused : RingHolds (2 ^ 16) num t.disk.usedRing t.disk.usedIdx t.disk.usedRingIdx usedQ')
    (hringed : ∀ d ∈ t.dev.ringed, t.disk.usedRing (t.disk.usedRingIdx % num) = d)
    (hA : (t.asked availQ').Perm (s.asked availQ)) (hC : (t.answered usedQ').Perm (s.answered usedQ)) :
    Inv t availQ' usedQ' := by
  refine h.remote hpc hfine (hlock ▸ h.locked) hfree havail hused hringed ?_ ?_ ?_ ?_
  · exact (hA.append hC).nodup_iff.mpr h.nodup
  · intro d hd
    exact (hA.append hC).mem_iff.mp hd
  · intro p
    refine (h.doing p).congr ?_ ?_ hbufs.2.1 (fun _ _ => ⟨hA.mem_iff, hC.mem_iff⟩) (fun _ => hring)
    · intro k d _
      rw [hdesc.1, hdesc.2.1, hdesc.2.2]
      exact ⟨rfl, rfl, rfl⟩
    · intro b _
      rw [hbufs.1, hbufs.2.2]
      exact ⟨rfl, rfl⟩
  · intro b _
    rw [hbufs.2.2]

theorem Inv.take (h : Inv s availQ usedQ) (hne : s.dev.idx ≠ s.disk.availIdx) :
    ∃ availQ', Inv { s with dev := { s.dev with
      idx := (s.dev.idx + 1) % 2 ^ 16
      taken := s.disk.availRing (s.dev.idx % num) :: s.dev.taken } } availQ' usedQ := by
  cases availQ with
  | nil => exact absurd ((h.avail.eq_nil_iff (by decide)).mpr rfl) hne
  | cons d availQ =>
    refine ⟨availQ, h.shift rfl rfl rfl ⟨rfl, rfl, rfl⟩ rfl ⟨rfl, rfl, rfl⟩ ⟨rfl, rfl⟩ h.avail.pop h.used
      h.ringed ?_ (List.Perm.refl _)⟩
    simp only [Sys.asked, h.avail.front]
    exact List.perm_middle

theorem Inv.waiter (h : Inv s availQ usedQ) (hd : d ∈ s.asked availQ ++ s.answered usedQ) :
    ∃ p b write i, (s.pc p = .waiting b write i ∨ s.pc p = .sleeping b write i) ∧ i.i0 = d ∧
      Formatted s b write i ∧ Underway s (s.asked availQ) (s.answered usedQ) b write d := by
  obtain ⟨p, hp⟩ := h.heads d hd
  have hdo := h.doing p
  cases hpc : s.pc p with
  | waiting b write i =>
    rw [hpc] at hp hdo
    cases hp
    exact ⟨p, b, write, i, .inl hpc, rfl, hdo⟩
  | sleeping b write i =>
    rw [hpc] at hp hdo
    cases hp
    exact ⟨p, b, write, i, .inr hpc, rfl, hdo⟩
  | _ =>
    rw [hpc] at hp
    cases hp

theorem doing_of_underway {A C : List Nat} {c : Pc β} (hc : c = .waiting b write i ∨ c = .sleeping b write i)
    (hf : Formatted t b write i) (hu : Underway t A C b write i.i0) : Doing t A C c := by
  obtain rfl | rfl := hc
  · exact ⟨hf, hu⟩
  · exact ⟨hf, hu⟩

theorem Inv.progress (h : Inv s availQ usedQ) (hp : s.pc p = .waiting b write i ∨ s.pc p = .sleeping b write i)
    (hpc : t.pc = s.pc) (hfine : t.panicked = s.panicked) (hlock : t.lock = s.lock)
    (hfree : t.disk.free = s.disk.free) (hblock : t.blockno = s.blockno)
    (hdesc : t.disk.desc = s.disk.desc ∧ t.disk.ops = s.disk.ops)
    (hring : t.disk.availRing = s.disk.availRing ∧ t.disk.availIdx = s.disk.availIdx)
    (hdev : t.dev.idx = s.dev.idx)
    (hinfo : (t.disk.info i.i0).b = (s.disk.info i.i0).b ∧ ∀ d, d ≠ i.i0 → t.disk.info d = s.disk.info d)
    (hother : ∀ b', b' ≠ b → t.busy b' = s.busy b' ∧ stage b' t.events = stage b' s.events)
    (hused : RingHolds (2 ^ 16) num t.disk.usedRing t.disk.usedIdx t.disk.usedRingIdx usedQ')
    (hringed : ∀ d ∈ t.dev.ringed, t.disk.usedRing (t.disk.usedRingIdx % num) = d)
    (hnodup : (t.asked availQ ++ t.answered usedQ').Nodup)
    (hsub : ∀ d ∈ t.asked availQ ++ t.answered usedQ', d ∈ s.asked availQ ++ s.answered usedQ)
    (hmem : ∀ d, d ≠ i.i0 → (d ∈ t.asked availQ ↔ d ∈ s.asked availQ) ∧
      (d ∈ t.answered usedQ' ↔ d ∈ s.answered usedQ))
    (hunder : Underway t (t.asked availQ) (t.answered usedQ') b write i.i0) : Inv t availQ usedQ' := by
  have hbuf : (s.pc p).buf = some b := by
    obtain hp | hp := hp <;> rw [hp] <;> rfl
  have howns : (s.pc p).owns 0 = some i.i0 := by
    obtain hp | hp := hp <;> rw [hp] <;> rfl
  have hform : Formatted s b write i := by
    have hdo := h.doing p
    obtain hp | hp := hp <;> rw [hp] at hdo <;> exact hdo.1
  refine h.remote hpc hfine (hlock ▸ h.locked) hfree ?_ hused hringed hnodup hsub ?_ ?_
  · rw [hring.1, hring.2, hdev]
    exact h.avail
  · intro q
    obtain rfl | hq := eq_or_ne q p
    · refine doing_of_underway hp ⟨?_, ?_, ?_, ?_, ?_⟩ hunder
      · rw [hdesc.1]
        exact hform.desc0
      · rw [hdesc.1]
        exact hform.desc1
      · rw [hdesc.1]
        exact hform.desc2
      · rw [hdesc.2, hblock]
        exact hform.op
      · rw [hinfo.1]
        exact hform.info
    · have hne : ∀ k d, (s.pc q).owns k = some d → d ≠ i.i0 := by
        rintro k d hk rfl
        exact hq (h.owner hk howns).1
      refine (h.doing q).congr ?_ ?_ hblock ?_ (fun _ => hring)
      · intro k d hk
        rw [hdesc.1, hdesc.2]
        exact ⟨rfl, rfl, hinfo.2 d (hne k d hk)⟩
      · intro b' hb'
        refine hother b' ?_
        rintro rfl
        exact hq (h.buffers q p _ hb' hbuf)
      · intro d hd
        exact hmem d (hne 0 d (Pc.head_owns hd))
  · intro b' hb'
    refine (hother b' ?_).2
    rintro rfl
    exact hb' p hbuf

theorem Inv.serve (h : Inv s availQ usedQ) (hd : d ∈ s.dev.taken) : Inv (Virtio.serve s d) availQ usedQ := by
  have hA : d ∈ s.asked availQ := List.mem_append_right _ hd
  obtain ⟨p, b, write, i, hp, rfl, hf, hu⟩ := h.waiter (List.mem_append_left _ hA)
  obtain ⟨hC, hbusy, hst⟩ : i.i0 ∉ s.answered usedQ ∧ s.busy b = true ∧
      stage b s.events = some (.requested write (sector (s.blockno b))) := by
    cases hu with
    | asked _ h2 h3 h4 => exact ⟨h2, h3, h4⟩
    | answered h1 | cleared h1 => exact absurd hA h1
  have hserve : Virtio.serve s i.i0 = { s with
      disk := { s.disk with
        info := update s.disk.info i.i0 { s.disk.info i.i0 with status := 0 } }
      dev := { s.dev with taken := s.dev.taken.erase i.i0, served := i.i0 :: s.dev.served }
      events := .completed b write (sector (s.blockno b)) :: s.events } := by
    have hwrite : ((s.disk.ops i.i0).type == blkTOut) = write := by
      rw [hf.op]
      cases write <;> rfl
    have hsector : (s.disk.ops i.i0).sector = sector (s.blockno b) := by rw [hf.op]
    simp only [Virtio.serve, hf.desc0, hf.desc1, hf.desc2, hwrite, hsector]
  have hperm : ((availQ ++ s.dev.taken.erase i.i0) ++
      (i.i0 :: s.dev.served ++ s.dev.ringed.toList ++ usedQ)).Perm
      (s.asked availQ ++ s.answered usedQ) := by
    have htaken := (List.perm_cons_erase hd).symm
    simp only [Sys.asked, Sys.answered, List.append_assoc, List.cons_append]
    exact List.Perm.append_left _ (List.perm_middle.trans (List.Perm.append_right _ htaken))
  rw [hserve]
  have hnodup := hperm.nodup_iff.mpr h.nodup
  have hout : i.i0 ∉ availQ ++ s.dev.taken.erase i.i0 := fun hin =>
    (List.nodup_append.mp hnodup).2.2 _ hin i.i0 (by simp) rfl
  refine h.progress hp rfl rfl rfl rfl rfl ⟨rfl, rfl⟩ ⟨rfl, rfl⟩ rfl ⟨by simp, ?_⟩ ?_ h.used h.ringed
    hnodup (fun _ hin => hperm.mem_iff.mp hin) ?_ ?_
  · intro d hne
    exact update_of_ne hne ..
  · intro b' hb'
    exact ⟨rfl, stage_other (Ne.symm hb')⟩
  · intro d hne
    simp [Sys.asked, Sys.answered, hne, List.mem_erase_of_ne]
  · exact .answered hout (by simp [Sys.answered]) hbusy (stage_completed hst) (by simp)

theorem Inv.ringUsed (h : Inv s availQ usedQ) (hd : d ∈ s.dev.served) (hnone : s.dev.ringed = none) :
    Inv { s with
      disk := { s.disk with
        usedRing := update s.disk.usedRing (s.disk.usedRingIdx % num) d }
      dev := { s.dev with served := s.dev.served.erase d, ringed := some d } } availQ usedQ := by
  have hroom := h.room_used (.inl hd)
  refine h.shift rfl rfl rfl ⟨rfl, rfl, rfl⟩ rfl ⟨rfl, rfl, rfl⟩ ⟨rfl, rfl⟩ h.avail
    (h.used.write (by decide) hroom) ?_ (List.Perm.refl _) ?_
  · rintro c ⟨⟩
    exact update_self ..
  · simp only [Sys.answered, hnone, Option.toList_none, Option.toList_some, List.append_nil]
    refine List.Perm.append_right _ ?_
    exact List.perm_append_comm.trans (List.perm_cons_erase hd).symm

theorem Inv.publish (h : Inv s availQ usedQ) (hd : s.dev.ringed = some d) :
    Inv { s with
      disk := { s.disk with usedRingIdx := (s.disk.usedRingIdx + 1) % 2 ^ 16 }
      dev := { s.dev with ringed := none } } availQ (usedQ ++ [d]) := by
  have hroom := h.room_used (.inr hd)
  refine h.shift rfl rfl rfl ⟨rfl, rfl, rfl⟩ rfl ⟨rfl, rfl, rfl⟩ ⟨rfl, rfl⟩ h.avail
    (h.used.advance hroom (h.ringed d hd)) ?_ (List.Perm.refl _) ?_
  · rintro c ⟨⟩
  · simp only [Sys.answered, hd, Option.toList_none, Option.toList_some, List.append_nil, List.append_assoc]
    exact List.Perm.append_left _ List.perm_append_comm

theorem Inv.intrStep (h : Inv s availQ usedQ) (hl : s.lock = some .intr) :
    ∃ usedQ', Inv (Virtio.intrStep s) availQ usedQ' := by
  by_cases hidx : s.disk.usedIdx = s.disk.usedRingIdx
  · refine ⟨usedQ, ?_⟩
    rw [Virtio.intrStep, if_neg (not_not.mpr hidx)]
    refine h.remote rfl rfl ?_ rfl h.avail h.used h.ringed h.nodup (fun _ hd => hd) ?_ (fun _ _ => rfl)
    · intro p hp
      have := h.locked p hp
      rw [hl] at this
      cases this
    · intro p
      exact (h.doing p).congr (fun _ _ _ => ⟨rfl, rfl, rfl⟩) (fun _ _ => ⟨rfl, rfl⟩) rfl
        (fun _ _ => ⟨Iff.rfl, Iff.rfl⟩) (fun _ => ⟨rfl, rfl⟩)
  · cases usedQ with
    | nil => exact absurd ((h.used.eq_nil_iff (by decide)).mpr rfl) hidx
    | cons d usedQ =>
      have hC : d ∈ s.answered (d :: usedQ) := by simp [Sys.answered]
      obtain ⟨p, b, write, i, hp, rfl, hf, hu⟩ := h.waiter (List.mem_append_right _ hC)
      obtain ⟨hA, hst, hstatus⟩ : i.i0 ∉ s.asked availQ ∧ stage b s.events = some .completed ∧
          (s.disk.info i.i0).status = 0 := by
        cases hu with
        | asked _ h2 | cleared _ h2 => exact absurd hC h2
        | answered h1 _ _ h4 h5 => exact ⟨h1, h4, h5⟩
      have hstep : Virtio.intrStep s = { s with
          busy := update s.busy b false
          disk := { s.disk with usedIdx := (s.disk.usedIdx + 1) % 2 ^ 16 }
          events := .cleared b :: s.events } := by
        rw [Virtio.intrStep, if_pos hidx]
        simp only [h.used.front, hstatus, hf.info, ne_eq, not_true_eq_false, ↓reduceIte]
      have hperm : (s.asked availQ ++ s.answered (i.i0 :: usedQ)).Perm
          (i.i0 :: (s.asked availQ ++ s.answered usedQ)) := by
        simp only [Sys.answered, ← List.append_assoc]
        exact List.perm_middle
      have hnodup := List.nodup_cons.mp (hperm.nodup_iff.mp h.nodup)
      refine ⟨usedQ, ?_⟩
      rw [hstep]
      refine h.progress hp rfl rfl rfl rfl rfl ⟨rfl, rfl⟩ ⟨rfl, rfl⟩ rfl ⟨rfl, fun _ _ => rfl⟩ ?_ h.used.pop
        h.ringed hnodup.2 ?_ ?_ ?_
      · intro b' hb'
        exact ⟨update_of_ne hb' .., stage_other (Ne.symm hb')⟩
      · intro d hin
        exact hperm.mem_iff.mpr (List.mem_cons_of_mem _ hin)
      · intro d hne
        simp [Sys.asked, Sys.answered, hne]
      · refine .cleared hA (fun hin => hnodup.1 (List.mem_append_right _ hin)) (update_self ..)
          (stage_cleared hst)

theorem Inv.init (blockno : β → Nat) : Inv (init blockno : Sys ι β) [] [] := by
  refine ⟨rfl, ?_, ?_, ⟨?_, ?_, ?_⟩, RingHolds.empty (by decide), RingHolds.empty (by decide), ?_, List.nodup_nil,
    ?_, fun _ => trivial, fun _ _ => rfl⟩
  · rintro p ⟨⟩
  · rintro p q b ⟨⟩
  · rintro x y d ⟨⟩
  · intro d
    simp [Virtio.init, Sys.ptr, Pc.owns]
  · rintro x d ⟨⟩
  · rintro d ⟨⟩
  · rintro d ⟨⟩

/-- A process calls `virtio_disk_rw` only with a buffer that nobody else is using. -/
def OwnBuffer (s : Sys ι β) : Act ι β → Prop
  | .call _ b _ => ∀ q, (s.pc q).buf ≠ some b
  | _ => True

instance [Fintype ι] (s : Sys ι β) (a : Act ι β) : Decidable (OwnBuffer s a) :=
  match a with
  | .call _ b _ => inferInstanceAs (Decidable (∀ q, (s.pc q).buf ≠ some b))
  | .rw _ => isTrue trivial
  | .intrStart => isTrue trivial
  | .intr => isTrue trivial
  | .take => isTrue trivial
  | .serve _ => isTrue trivial
  | .ring _ => isTrue trivial
  | .publish => isTrue trivial

theorem Inv.step [DecidableEq ι] {a : Act ι β} (h : Inv s availQ usedQ) (hb : OwnBuffer s a)
    (hs : step s a = some t) : ∃ availQ' usedQ', Inv t availQ' usedQ' := by
  have hok : ¬ s.panicked.isSome = true := by simp [h.fine]
  simp only [Virtio.step, if_neg hok] at hs
  cases a with
  | call p b write =>
    obtain ⟨⟨hpc, hl⟩, hs⟩ := Option.ite_none_right_eq_some.mp hs
    cases hs
    exact ⟨_, _, h.call hpc hl hb⟩
  | rw p =>
    obtain ⟨availQ', h'⟩ := h.rwStep hs
    exact ⟨_, _, h'⟩
  | intrStart =>
    obtain ⟨hl, hs⟩ := Option.ite_none_right_eq_some.mp hs
    cases hs
    refine ⟨_, _, h.remote rfl rfl ?_ rfl h.avail h.used h.ringed h.nodup (fun _ hd => hd) ?_ (fun _ _ => rfl)⟩
    · intro p hp
      have := h.locked p hp
      rw [hl] at this
      cases this
    · intro p
      exact (h.doing p).congr (fun _ _ _ => ⟨rfl, rfl, rfl⟩) (fun _ _ => ⟨rfl, rfl⟩) rfl
        (fun _ _ => ⟨Iff.rfl, Iff.rfl⟩) (fun _ => ⟨rfl, rfl⟩)
  | intr =>
    obtain ⟨hl, hs⟩ := Option.ite_none_right_eq_some.mp hs
    cases hs
    obtain ⟨usedQ', h'⟩ := h.intrStep hl
    exact ⟨_, _, h'⟩
  | take =>
    obtain ⟨hne, hs⟩ := Option.ite_none_right_eq_some.mp hs
    cases hs
    obtain ⟨availQ', h'⟩ := h.take hne
    exact ⟨_, _, h'⟩
  | serve d =>
    obtain ⟨hd, hs⟩ := Option.ite_none_right_eq_some.mp hs
    cases hs
    exact ⟨_, _, h.serve hd⟩
  | ring d =>
    obtain ⟨hd, hs⟩ := Option.ite_none_right_eq_some.mp hs
    cases hs
    exact ⟨_, _, h.ringUsed hd.1 hd.2⟩
  | publish =>
    cases hr : s.dev.ringed with
    | none => simp [hr] at hs
    | some d =>
      simp only [hr] at hs
      cases hs
      exact ⟨_, _, h.publish hr⟩

structure DriverOk (s : Sys ι β) : Prop where
  panic : s.panicked = none
  descriptors : ∀ d, d < num → (s.disk.free d = true ∧ ∀ x, s.ptr x ≠ some d) ∨
    (s.disk.free d = false ∧ ∃! x, s.ptr x = some d)
  chains : ∀ p b write i, s.pc p = .waiting b write i ∨ s.pc p = .sleeping b write i →
    i.Distinct ∧ Linked s.disk i.i0 i.i1 ∧ Linked s.disk i.i1 i.i2 ∧ Last s.disk i.i2
  slots : ∀ p b write i, s.pc p = .ringing b write i →
    ∀ k, k < (s.disk.availIdx + 2 ^ 16 - s.dev.idx) % 2 ^ 16 →
      (s.dev.idx + k) % 2 ^ 16 % num ≠ s.disk.availIdx % num
  order : ∀ b, (stage b s.events).isSome
  served : ∀ p b, (∃ i j, s.pc p = .freeing b i j) ∨ s.pc p = .leaving b →
    stage b s.events = some .cleared

theorem Doing.stage_isSome {A C : List Nat} {c : Pc β} (h : Doing s A C c) (hb : c.buf = some b) :
    (stage b s.events).isSome := by
  cases c <;> cases hb
  case allocating => exact h ▸ rfl
  case wantDesc => exact h ▸ rfl
  case formatting => exact h ▸ rfl
  case ringing => exact h.2.2 ▸ rfl
  case counting => exact h.2.2.1 ▸ rfl
  case waiting => cases h.2 <;> simp_all
  case sleeping => cases h.2 <;> simp_all
  case freeing => exact h.2.2 ▸ rfl
  case leaving => exact h ▸ rfl

theorem Inv.driverOk (h : Inv s availQ usedQ) : DriverOk s := by
  constructor
  · exact h.fine
  · intro d hd
    cases hf : s.disk.free d with
    | true =>
      refine .inl ⟨rfl, fun x hx => ?_⟩
      have := h.owned.used_of_ptr hx
      simp [hf] at this
    | false =>
      obtain hr | ⟨x, hx⟩ := (h.owned.used_iff d).mp hf
      · omega
      · exact .inr ⟨rfl, x, hx, fun y hy => h.owned.once hy hx⟩
  · intro p b write i hp
    have howns : ∀ k, (s.pc p).owns k = some (i.entry k) := by
      obtain hp | hp := hp <;> rw [hp] <;> exact fun _ => rfl
    have hf : Formatted s b write i := by
      have hdo := h.doing p
      obtain hp | hp := hp <;> rw [hp] at hdo <;> exact hdo.1
    refine ⟨h.entry_ne howns, ?_, ?_, ?_⟩
    · simp only [Linked, hf.desc0]
      decide
    · simp only [Linked, hf.desc1]
      cases write <;> decide
    · simp only [Last, hf.desc2]
      decide
  · intro p b write i hp k hk
    rw [h.avail.count (by decide)] at hk
    exact h.avail.slot_ne (by decide)
      (h.room_avail (p := p) (i := i) (by rw [hp]; rfl) (by rw [hp]; rfl)) hk
  · intro b
    by_cases hb : ∃ p, (s.pc p).buf = some b
    · obtain ⟨p, hp⟩ := hb
      exact (h.doing p).stage_isSome hp
    · rw [h.quiet b (fun p hp => hb ⟨p, hp⟩)]
      rfl
  · intro p b hp
    have hdo := h.doing p
    obtain ⟨i, j, hp⟩ | hp := hp
    · rw [hp] at hdo
      exact hdo.2.2
    · rw [hp] at hdo
      exact hdo

/-- The driver keeps to the protocol in every run, whatever the order of completions. -/
theorem driver_protocol [DecidableEq ι] {blockno : β → Nat} {as : List (Act ι β)}
    (hr : Run step OwnBuffer (init blockno) as s) : DriverOk s := by
  have hinv : ∃ availQ usedQ, Inv s availQ usedQ := by
    refine hr.invariant (I := fun s => ∃ availQ usedQ, Inv s availQ usedQ) ?_ ⟨_, _, Inv.init blockno⟩
    rintro s a t ⟨availQ, usedQ, h⟩ hb hs
    exact h.step hb hs
  obtain ⟨availQ, usedQ, h⟩ := hinv
  exact h.driverOk

/-- Two requests that are completed in the other order; the first process is back before the second
one wakes up. -/
def outOfOrder : List (Act Bool Bool) :=
  [.call false false false, .rw false, .rw false, .rw false, .rw false, .rw false,
    .call true true true, .rw true, .rw true, .take, .rw true, .rw true, .rw true,
    .take, .serve 3, .ring 3, .serve 0, .publish, .intrStart, .intr, .ring 0, .publish, .intr, .intr,
    .rw false, .rw false, .rw false, .rw false, .rw false, .rw false, .rw true, .rw true, .rw true]

theorem driver_protocol_outOfOrder : ∃ s : Sys Bool Bool, DriverOk s ∧ s.pc false = .idle ∧
    s.pc true = .freeing true ⟨3, 4, 5⟩ 4 ∧ s.disk.free 0 = true := by
  have hrun : ∃ s : Sys Bool Bool, Run step OwnBuffer (init Bool.toNat) outOfOrder s ∧ s.pc false = .idle ∧
      s.pc true = .freeing true ⟨3, 4, 5⟩ 4 ∧ s.disk.free 0 = true := Run.exists_of_outcome (by decide +kernel)
  obtain ⟨s, hr, hs⟩ := hrun
  exact ⟨s, driver_protocol hr, hs⟩

end Xv6.Virtio
