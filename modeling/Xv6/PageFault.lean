import Xv6.UserMemory
import Xv6.UserStrings

namespace Xv6.Vm

open Xv6.Lib Xv6.Lib.Radix

section Supplies

variable {m m' : Phys} {pt a k : Nat} {E : String → Phys → Prop}

def Supplies (m : Phys) (k : Nat) : Prop := k ≤ m.free.length ∧ ∀ d ∈ m.deny.take k, d = false

theorem Supplies.mono {l : Nat} (h : Supplies m l) (hk : k ≤ l) : Supplies m k :=
  ⟨hk.trans h.1, fun d hd => h.2 d ((List.take_sublist_take_left hk).subset hd)⟩

theorem kalloc_supplied (m : Phys) :
    Ensures kalloc m (fun r m' => ∀ k, Supplies m (k + 1) → r.isSome = true ∧ Supplies m' k) E := by
  have hhead : ∀ k, Supplies m (k + 1) → m.deny.headD false = false := by
    intro k h
    cases hd : m.deny with
    | nil => rfl
    | cons d ds => exact h.2 d (by rw [hd, List.take_succ_cons]; exact List.mem_cons_self)
  have htail : ∀ k, Supplies m (k + 1) → ∀ d ∈ m.deny.tail.take k, d = false := by
    intro k h d hd
    cases hds : m.deny with
    | nil =>
      rw [hds, List.tail_nil, List.take_nil] at hd
      exact absurd hd List.not_mem_nil
    | cons e ds =>
      rw [hds, List.tail_cons] at hd
      exact h.2 d (by rw [hds, List.take_succ_cons]; exact List.mem_cons_of_mem _ hd)
  unfold kalloc
  apply Ensures.bind_get
  split
  · next hdeny =>
    apply Ensures.bind_set
    refine .pure fun k h => ?_
    rw [hhead k h] at hdeny
    exact absurd hdeny Bool.false_ne_true
  · split
    · next hfree =>
      apply Ensures.bind_set
      refine .pure fun k h => ?_
      have hlen := h.1
      rw [hfree, List.length_nil] at hlen
      omega
    · next p free hfree =>
      apply Ensures.bind_set
      refine .pure fun k h => ⟨rfl, ?_, htail k h⟩
      have hlen := h.1
      rw [hfree, List.length_cons] at hlen
      exact Nat.le_of_succ_le_succ hlen

theorem descend_supplied (m : Phys) (x : Nat) (i : Fin 512) :
    Ensures (descend x i true) m (fun r m' => ∀ k, Supplies m (k + 1) → r.isSome = true ∧ Supplies m' k) E := by
  unfold descend
  apply Ensures.bind_get
  dsimp only
  by_cases hv : has (m.word x i) pteV = true
  · rw [if_pos hv]
    exact .pure fun k h => ⟨rfl, h.mono (Nat.le_succ k)⟩
  · rw [if_neg hv, if_pos rfl]
    refine (kalloc_supplied m).seq fun r m₁ h => ?_
    cases r with
    | none => exact .pure fun k hk => h k hk
    | some y =>
      apply Ensures.bind_modify
      exact .pure fun k hk => ⟨rfl, (h k hk).2⟩

theorem walk_supplied (m : Phys) (pt : Nat) (ha : a < maxva) :
    Ensures (walk pt a true) m (fun r m' => ∀ k, Supplies m (k + 2) → r.isSome = true ∧ Supplies m' k) E := by
  rw [walk, if_neg (Nat.not_le.mpr ha), walkLevels]
  refine (descend_supplied m pt _).seq fun r m₁ h => ?_
  cases r with
  | none => exact .pure fun k hk => absurd (h (k + 1) hk).1 Bool.false_ne_true
  | some x =>
    dsimp only
    rw [walkLevels]
    refine (descend_supplied m₁ x _).seq fun r m₂ h' => ?_
    cases r with
    | none => exact .pure fun k hk => absurd (h' k (h (k + 1) hk).2).1 Bool.false_ne_true
    | some t => exact .pure fun k hk => ⟨rfl, (h' k (h (k + 1) hk).2).2⟩

theorem mappages_supplied (m : Phys) (pt pa perm : Nat) (ha : a % pgsize = 0) (hmax : a < maxva) :
    Ensures (mappages pt a pgsize pa perm) m
      (fun r m' => ∀ k, Supplies m (k + 2) → r = 0 ∧ Supplies m' k) (fun _ _ => True) := by
  have hlast : (a + pgsize - pgsize) % 2 ^ 64 = a := by
    rw [Nat.add_sub_cancel]
    exact Nat.mod_eq_of_lt (hmax.trans (by decide))
  have hone : pgsize / pgsize = 0 + 1 := by decide
  rw [mappages, if_neg (not_not.mpr ha), if_neg (not_not.mpr (Nat.mod_self _)), if_neg (by decide), hlast, hone,
    mapLoop]
  refine (walk_supplied m pt hmax).seq fun r m₁ h => ?_
  cases r with
  | none => exact .pure fun k hk => absurd (h k hk).1 Bool.false_ne_true
  | some ptr =>
    apply Ensures.bind_get
    dsimp only
    split
    · exact .throw trivial
    · apply Ensures.bind_set
      rw [if_pos rfl]
      exact .pure fun k hk => ⟨rfl, (h k hk).2⟩

end Supplies

section Space

variable [Layout] {m m' m'' : Phys} {p : Proc} {a b f g lo hi e pt : Nat}

/-- The page table of a process: below the trapframe only pages of its own, up to its size, then the page
with its trapframe, then the trampoline. -/
structure ProcSpace (m : Phys) (p : Proc) : Prop extends UserPages m p.pagetable p.sz where
  size : p.sz ≤ trapframeVa
  code : m.lookup p.pagetable trampolineVa = some (entry trampoline (pteR ||| pteX))
  frame : m.lookup p.pagetable trapframeVa = some (entry p.trapframe (pteR ||| pteW))
  trapframe : Frame p.trapframe ∧ p.trapframe ∉ m.tables p.pagetable ∧ p.trapframe ∉ m.free
  apart : ∀ a e, a < trapframeVa → m.lookup p.pagetable a = some e → pte2pa e ≠ p.trapframe

omit [Layout] in
theorem lookup_lt (h : m.lookup pt a = some e) : a < maxva := by
  by_contra hmax
  rw [lookup_high m pt (Nat.not_lt.mp hmax)] at h
  exact absurd h (by simp)

omit [Layout] in
theorem user_some (h : m.user pt a = some f) :
    ∃ e, m.lookup pt a = some e ∧ has e pteU = true ∧ pte2pa e = f := by
  obtain ⟨e, he, hu⟩ := Option.bind_eq_some_iff.mp h
  split at hu
  · next hc => exact ⟨e, he, hc.1, Option.some.inj hu⟩
  · exact absurd hu (by simp)

theorem ProcSpace.high (h : ProcSpace m p) (he : m.lookup p.pagetable a = some e)
    (ha : trapframeVa ≤ a) : e = entry p.trapframe (pteR ||| pteW) ∨ e = entry trampoline (pteR ||| pteX) := by
  have hpg : pgsize = 4096 := rfl
  have hmv : maxva = 2 ^ 38 := rfl
  have htf : trapframeVa = 2 ^ 38 - 8192 := rfl
  have htr : trampolineVa = 2 ^ 38 - 4096 := rfl
  have hlt := lookup_lt he
  by_cases hlow : a < trampolineVa
  · rw [lookup_page m _ hlt (b := trapframeVa) (by decide) (by rw [hpg]; omega), h.frame] at he
    exact .inl (Option.some.inj he).symm
  · rw [lookup_page m _ hlt (b := trampolineVa) (by decide) (by rw [hpg]; omega), h.code] at he
    exact .inr (Option.some.inj he).symm

theorem ProcSpace.below_trapframe (h : ProcSpace m p) (he : m.lookup p.pagetable a = some e)
    (hflag : has e pteU = true) : a < trapframeVa := by
  by_contra hge
  rw [← has_pteFlags _ (by decide)] at hflag
  obtain rfl | rfl := h.high he (Nat.not_lt.mp hge)
  · rw [entry_flags _ (by decide)] at hflag
    exact absurd hflag (by decide)
  · rw [entry_flags _ (by decide)] at hflag
    exact absurd hflag (by decide)

theorem ProcSpace.user_below (h : ProcSpace m p) (hu : m.user p.pagetable a = some f) : a < trapframeVa := by
  obtain ⟨e, he, hflag, -⟩ := user_some hu
  exact h.below_trapframe he hflag

theorem ProcSpace.user_own (h : ProcSpace m p) (hu : m.user p.pagetable a = some f) :
    Frame f ∧ f ∉ m.tables p.pagetable ∧ f ∉ m.free ∧ f ≠ p.trapframe := by
  have hlt := h.user_below hu
  obtain ⟨e, he, -, rfl⟩ := user_some hu
  obtain ⟨hframe, htab, hfree⟩ := h.own.frame a e (Nat.zero_le a) hlt he
  exact ⟨hframe, htab, hfree, h.apart a e hlt he⟩

theorem ProcSpace.user_once (h : ProcSpace m p) (ha : m.user p.pagetable a = some f)
    (hb : m.user p.pagetable b = some f) : a / pgsize = b / pgsize := by
  obtain ⟨e, he, -, hf⟩ := user_some ha
  obtain ⟨e', he', -, hf'⟩ := user_some hb
  exact h.own.once a b e e' (Nat.zero_le a) (h.user_below ha) (Nat.zero_le b) (h.user_below hb) he he'
    (hf.trans hf'.symm)

theorem Frame.ne_zero (h : Frame f) : f ≠ 0 := by
  have hend : trampoline + pgsize ≤ kend := Layout.trampoline_end
  have hlow := h.low
  have hpg : pgsize = 4096 := rfl
  omega

theorem Frame.ne_trampoline (h : Frame f) : f ≠ trampoline := by
  have hend : trampoline + pgsize ≤ kend := Layout.trampoline_end
  have hlow := h.low
  have hpg : pgsize = 4096 := rfl
  omega

theorem ProcSpace.user_ne (h : ProcSpace m p) (hu : m.user p.pagetable a = some f)
    (hb : m.lookup p.pagetable b = some e) (hflag : has e pteU = false) : pte2pa e ≠ f := by
  obtain ⟨hframe, -, -, htf⟩ := h.user_own hu
  by_cases hlow : b < trapframeVa
  · intro hc
    obtain ⟨e', he', hflag', rfl⟩ := user_some hu
    have hpage := h.own.once b a e e' (Nat.zero_le b) hlow (Nat.zero_le a) (h.user_below hu) hb he' hc
    rw [lookup_same m _ hpage, he'] at hb
    rw [Option.some.inj hb, hflag] at hflag'
    exact absurd hflag' Bool.false_ne_true
  · obtain rfl | rfl := h.high hb (Nat.not_lt.mp hlow)
    · rw [h.trapframe.1.entry_pa (by decide)]
      exact htf.symm
    · have hend : trampoline + pgsize ≤ kend := Layout.trampoline_end
      have hlt : trampoline < 2 ^ 64 := by
        have hlow := hframe.low
        have hlt := hframe.lt
        omega
      rw [entry_pa_of_aligned hlt Layout.trampoline_aligned (by decide)]
      exact hframe.ne_trampoline.symm

theorem ProcSpace.user_of_lookup (h : ProcSpace m p) (he : m.lookup p.pagetable a = some e)
    (hu : has e pteU = true) : m.user p.pagetable a = some (pte2pa e) := by
  have hframe := (h.own.frame a e (Nat.zero_le a) (h.below_trapframe he hu) he).1
  rw [Phys.user, he, Option.bind_some, if_pos ⟨hu, hframe.ne_zero⟩]

/-- What the user reads at an address where a page that is absent counts as zeros. -/
def Phys.view (m : Phys) (pt a : Nat) : UInt8 := (m.userByte pt a).getD 0

omit [Layout] in
theorem view_of_user (h : m.user pt a = some f) : m.view pt a = m.page f (a % pgsize) := by
  rw [Phys.view, Phys.userByte, Phys.cell, h]
  rfl

omit [Layout] in
theorem view_of_none (h : m.user pt a = none) : m.view pt a = 0 := by
  rw [Phys.view, Phys.userByte, Phys.cell, h]
  rfl

theorem ProcSpace.filled {want : Image} (h : ProcSpace m p) (hperm : want.Perms)
    (ha : Filled p.pagetable lo hi want m m') (hhi : hi ≤ pgRoundUp p.sz) : ProcSpace m' p := by
  have htop := pgRoundUp_le h.size
  have htf : trapframeVa = 2 ^ 38 - 8192 := rfl
  have hmv : maxva = 2 ^ 38 := rfl
  have htr : trampolineVa = 2 ^ 38 - 4096 := rfl
  obtain ⟨hframe, htab, hfree⟩ := h.trapframe
  refine ⟨h.toUserPages.filled hperm ha hhi (Nat.le_refl _), h.size, ?_, ?_,
    ⟨hframe, ha.notMem_tables htab hfree, ?_⟩, fun b e hb he => ?_⟩
  · rw [ha.lookup _ (by decide) (by omega), h.code]
  · rw [ha.lookup _ (by decide) (by omega), h.frame]
  · exact fun hc => hfree (ha.free _ hc)
  · by_cases hin : lo ≤ b ∧ b < hi
    · have hnew := (ha.mapsTo hperm ⟨b, e, hin.1, hin.2, he, rfl⟩).2.1
      exact fun hc => hfree (hc ▸ hnew)
    · rw [ha.lookup b (by omega) hin] at he
      exact h.apart b e hb he

theorem ProcSpace.congr (h : ProcSpace m p) (hpages : ∀ x ∈ m.tables p.pagetable, m'.page x = m.page x)
    (heap : FreeList m') (hfree : ∀ x ∈ m'.free, x ∈ m.free) :
    ProcSpace m' p ∧ (∀ b, m'.lookup p.pagetable b = m.lookup p.pagetable b) ∧
      m'.tables p.pagetable = m.tables p.pagetable := by
  have hnot : ∀ {x}, x ∉ m.free → x ∉ m'.free := fun hx hc => hx (hfree _ hc)
  obtain ⟨htable, htables⟩ := h.table.congr hpages (fun x hx => hnot (h.table.used x hx)) heap
  have hlookup : ∀ b, m'.lookup p.pagetable b = m.lookup p.pagetable b := by
    intro b
    by_cases hb : b < maxva
    · exact lookup_congr hb hpages
    · rw [lookup_high m' _ (Nat.not_lt.mp hb), lookup_high m _ (Nat.not_lt.mp hb)]
  refine ⟨⟨⟨htable, ?_, fun b e hb hb' he => ?_, ?_⟩, h.size, ?_, ?_, ?_, ?_⟩, hlookup, htables⟩
  · simpa only [hlookup] using h.below
  · rw [hlookup] at he
    obtain ⟨hframe, htab, hused⟩ := h.own.frame b e hb hb' he
    exact ⟨hframe, htables ▸ htab, hnot hused⟩
  · simpa only [hlookup] using h.own.once
  · rw [hlookup, h.code]
  · rw [hlookup, h.frame]
  · obtain ⟨hframe, htab, hused⟩ := h.trapframe
    exact ⟨hframe, htables ▸ htab, hnot hused⟩
  · simpa only [hlookup] using h.apart

/-- Absent pages below the size may have been brought in. -/
structure Extended (p : Proc) (m m' : Phys) : Prop where
  space : ProcSpace m' p
  kept : ∀ a e, m.lookup p.pagetable a = some e → m'.lookup p.pagetable a = some e
  fresh : ∀ a e, m.lookup p.pagetable a = none → m'.lookup p.pagetable a = some e →
    pgRoundDown a < p.sz ∧ ∃ f, e = entry f (pteW ||| pteU ||| pteR)
  free : ∀ x ∈ m'.free, x ∈ m.free
  tables : ∀ x ∈ m'.tables p.pagetable, x ∈ m.tables p.pagetable ∨ x ∈ m.free

theorem Extended.refl (h : ProcSpace m p) : Extended p m m :=
  ⟨h, fun _ _ he => he, fun _ _ hn he => absurd (hn.symm.trans he) (by simp), fun _ hx => hx, fun _ hx => .inl hx⟩

theorem Extended.trans (h : Extended p m m') (h' : Extended p m' m'') : Extended p m m'' := by
  refine ⟨h'.space, fun a e he => h'.kept a e (h.kept a e he), fun a e hn he => ?_,
    fun x hx => h.free x (h'.free x hx), fun x hx => ?_⟩
  · cases he' : m'.lookup p.pagetable a with
    | none => exact h'.fresh a e he' he
    | some e' =>
      have hsame := h'.kept a e' he'
      rw [he] at hsame
      exact h.fresh a e hn (Option.some.inj hsame ▸ he')
  · exact (h'.tables x hx).elim (h.tables x) fun hf => .inr (h.free x hf)

structure Faulted (p : Proc) (m m' : Phys) : Prop extends Extended p m m' where
  view : ∀ a, m'.view p.pagetable a = m.view p.pagetable a
  others : ∀ x, x ∉ m.tables p.pagetable → x ∉ m.free → m'.page x = m.page x

theorem Extended.user (h : Extended p m m') (hu : m.user p.pagetable a = some f) :
    m'.user p.pagetable a = some f := by
  obtain ⟨e, he, -, -⟩ := user_some hu
  rw [Phys.user, h.kept a e he, ← hu, Phys.user, he]

theorem Faulted.refl (h : ProcSpace m p) : Faulted p m m := ⟨.refl h, fun _ => rfl, fun _ _ _ => rfl⟩

theorem Faulted.of_allocated (h : ProcSpace m p)
    (ha : Allocated p.pagetable lo hi (pteW ||| pteU ||| pteR) m m') (hhi : hi ≤ pgRoundUp p.sz)
    (hnone : ∀ b, lo ≤ b → b < hi → m.lookup p.pagetable b = none) : Faulted p m m' := by
  have hperm : (zeros (pteW ||| pteU ||| pteR)).Perms := zeros_perms (by decide)
  have hspace := h.filled hperm ha hhi
  have hkept : ∀ a e, m.lookup p.pagetable a = some e → m'.lookup p.pagetable a = some e := by
    intro a e he
    by_cases hin : lo ≤ a ∧ a < hi
    · rw [hnone a hin.1 hin.2] at he
      exact absurd he (by simp)
    · rw [ha.lookup a (lookup_lt he) hin, he]
  have hnew : ∀ a e, m.lookup p.pagetable a = none → m'.lookup p.pagetable a = some e → lo ≤ a ∧ a < hi := by
    intro a e hn he
    by_contra hout
    rw [ha.lookup a (lookup_lt he) hout, hn] at he
    exact absurd he (by simp)
  have hext : Extended p m m' := by
    refine ⟨hspace, hkept, fun a e hn he => ?_, ha.free, fun x hx => ?_⟩
    · have hin := hnew a e hn he
      obtain ⟨f, hf, -⟩ := ha.fresh a _ _ hin.1 hin.2 rfl
      refine ⟨?_, f, Option.some.inj (he.symm.trans hf)⟩
      have hpg : pgsize = 4096 := rfl
      have hlt := hin.2.trans_le hhi
      rw [pgRoundUp_eq (h.size.trans (by decide))] at hlt
      rw [pgRoundDown, hpg]
      omega
    · rw [ha.tables] at hx
      exact hx.imp id fun hx => hx.1
  refine ⟨hext, fun a => ?_, ha.others⟩
  cases hu : m.user p.pagetable a with
  | some f =>
    obtain ⟨-, htab, hfree, -⟩ := h.user_own hu
    rw [view_of_user hu, view_of_user (hext.user hu), ha.others f htab hfree]
  | none =>
    rw [view_of_none hu]
    cases hu' : m'.user p.pagetable a with
    | none => exact view_of_none hu'
    | some f =>
      obtain ⟨e, he, hflag, hf⟩ := user_some hu'
      have hn : m.lookup p.pagetable a = none := by
        cases hold : m.lookup p.pagetable a with
        | none => rfl
        | some e' =>
          have hsame := (hkept a e' hold).symm.trans he
          rw [Option.some.inj hsame] at hold
          exact absurd (h.user_of_lookup hold hflag) (by rw [hu]; simp)
      have hin := hnew a e hn he
      obtain ⟨g, hg, hframe, -, -, -, hzero⟩ := ha.fresh a _ _ hin.1 hin.2 rfl
      have hfg : f = g := by rw [← hf, Option.some.inj (he.symm.trans hg), hframe.entry_pa (by decide)]
      rw [view_of_user hu', hfg, hzero]

theorem Faulted.of_deepened (h : ProcSpace m p) (hdeep : Deepened p.pagetable m m') : Faulted p m m' := by
  refine .of_allocated h ((Filled.refl h.table (Nat.le_refl 0)).deepen (zeros_perms (by decide))
    (Nat.zero_le _) hdeep)
    (Nat.zero_le _) fun b _ hb => absurd hb (Nat.not_lt_zero b)

end Space

section Fault

variable [Layout] {m : Phys} {p : Proc} {a : Nat}

omit [Layout] in
theorem ismapped_eq (m : Phys) (pt : Nat) (ha : a < maxva) :
    ismapped pt a m = .ok (m.lookup pt a).isSome m := by
  rw [ismapped, bind_of_ok (readPte_eq m pt ha), lookup_eq m pt ha]
  cases node m.link pt (path a) with
  | none => rfl
  | some t =>
    dsimp only [Option.map_some, Option.bind_some]
    cases has (m.word t (px 0 a)) pteV with
    | false => rfl
    | true => rfl

omit [Layout] in
theorem pgRoundDown_aligned (h : a % pgsize = 0) : pgRoundDown a = a :=
  Nat.div_mul_cancel (Nat.dvd_of_mod_eq_zero h)

/-- What `vmfault` does for a page of the process: the page is brought in as zeros, or there is a reason why
it is not. -/
def Faults (p : Proc) (m : Phys) (a r : Nat) (m' : Phys) : Prop :=
  (∀ k, Supplies m (k + 3) → Supplies m' k) ∧
    ((r = 0 ∧ Deepened p.pagetable m m' ∧
        (p.sz ≤ a ∨ (m.lookup p.pagetable a).isSome = true ∨ ¬ Supplies m 3)) ∨
      Frame r ∧ a < p.sz ∧ m.lookup p.pagetable a = none ∧
        Allocated p.pagetable a (a + pgsize) (pteW ||| pteU ||| pteR) m m' ∧
        m'.lookup p.pagetable a = some (entry r (pteW ||| pteU ||| pteR)))

theorem vmfault_ensures (h : ProcSpace m p) (ha : a % pgsize = 0) :
    Completes (vmfault p p.pagetable a) m (Faults p m a) := by
  have hpg : pgsize = 4096 := rfl
  have htf : trapframeVa = 2 ^ 38 - 8192 := rfl
  have hmv : maxva = 2 ^ 38 := rfl
  have hsize := h.size
  have hperm : pteW ||| pteU ||| pteR < 2 ^ 10 := by decide
  unfold vmfault
  by_cases hsz : p.sz ≤ a
  · rw [if_pos hsz]
    exact .pure ⟨fun k hk => hk.mono (by omega), .inl ⟨rfl, .refl h.table, .inl hsz⟩⟩
  · have hroom : a + pgsize ≤ maxva := by
      rw [hpg] at ha ⊢
      omega
    have hamax : a < maxva := by omega
    rw [if_neg hsz]
    dsimp only
    rw [pgRoundDown_aligned ha]
    refine Ensures.bind_eq (ismapped_eq m p.pagetable hamax) ?_
    by_cases hmap : (m.lookup p.pagetable a).isSome = true
    · rw [if_pos hmap]
      exact .pure ⟨fun k hk => hk.mono (by omega), .inl ⟨rfl, .refl h.table, .inr (.inl hmap)⟩⟩
    · rw [if_neg hmap]
      have hnone : m.lookup p.pagetable a = none := Option.not_isSome_iff_eq_none.mp hmap
      refine ((kalloc_took m).both (kalloc_supplied m)).seq ?_
      rintro r m₁ ⟨⟨rfl, hfree, hpage⟩ | ⟨f, rfl, htook⟩, hsup⟩
      · refine .pure ⟨fun k hk => absurd (hsup (k + 2) hk).1 Bool.false_ne_true,
          .inl ⟨rfl, .of_same h.table hfree hpage, .inr (.inr fun hk => ?_)⟩⟩
        exact absurd (hsup 2 hk).1 Bool.false_ne_true
      · apply Ensures.bind_modify
        have htook' := htook.setPage fun _ => 0
        have hzero := m₁.setPage_page_self f fun _ => 0
        obtain ⟨htable, -, hsame, hframe, -, -, -, -⟩ := htook'.table h.table
        have hunmapped : (m₁.setPage f fun _ => 0).lookup p.pagetable a = none := by
          rw [hsame a hamax, hnone]
        have hsup₁ : ∀ k, Supplies m (k + 1) → Supplies (m₁.setPage f fun _ => 0) k := fun k hk => (hsup k hk).2
        apply Ensures.bind
        refine ((mappages_one htable ha hroom hframe.lt hperm hunmapped).and
          (mappages_supplied _ p.pagetable f _ ha hamax)).imp ?_ fun _ _ he => he.1
        rintro r m₂ ⟨⟨rfl, hgrown, hmapped⟩ | ⟨rfl, hdeep⟩, hsup₂⟩
        · rw [if_neg (not_not.mpr rfl)]
          refine .pure ⟨fun k hk => (hsup₂ k (hsup₁ (k + 2) hk)).2, .inr ⟨hframe, by omega, hnone, ?_, ?_⟩⟩
          · exact (Filled.refl h.table (Nat.le_refl a)).step (Nat.le_refl a) ha hroom (zeros_perms hperm)
              (fun _ _ _ => rfl) htook' hzero hgrown hmapped
          · rw [hmapped a hamax, if_pos rfl]
        · rw [if_pos (by decide)]
          have hfail : ∀ k, ¬ Supplies m (k + 3) := fun k hk =>
            absurd (hsup₂ k (hsup₁ (k + 2) hk)).1 (by decide)
          refine (kfree_ensures hframe).seq ?_
          rintro _ m₃ ⟨hfree, hpages⟩
          exact .pure ⟨fun k hk => absurd hk (hfail k),
            .inl ⟨rfl, .give_back h.table htook' hdeep hfree hpages, .inr (.inr (hfail 0))⟩⟩

def FindsPage (p : Proc) (m : Phys) (a r : Nat) (m' : Phys) : Prop :=
  Faulted p m m' ∧ (∀ k, Supplies m (k + 3) → Supplies m' k) ∧
    (m'.user p.pagetable a = some r ∨ r = 0 ∧ m'.user p.pagetable a = none ∧
      (p.sz ≤ a ∨ (m.lookup p.pagetable a).isSome = true ∨ ¬ Supplies m 3))

theorem userPage_ensures (h : ProcSpace m p) (ha : a % pgsize = 0) :
    Completes (userPage p p.pagetable a) m (FindsPage p m a) := by
  unfold userPage
  refine Ensures.bind_eq (walkaddr_eq m p.pagetable a) ?_
  cases hu : m.user p.pagetable a with
  | some f =>
    rw [Option.getD_some, if_neg (user_ne_zero hu)]
    exact .pure ⟨.refl h, fun k hk => hk.mono (by omega), .inl hu⟩
  | none =>
    rw [Option.getD_none, if_pos rfl]
    refine (vmfault_ensures h ha).post ?_
    rintro r m' ⟨hsup, ⟨rfl, hdeep, hwhy⟩ | ⟨hframe, hlt, hnone, halloc, hentry⟩⟩
    · have hf := Faulted.of_deepened h hdeep
      refine ⟨hf, hsup, .inr ⟨rfl, ?_, hwhy⟩⟩
      by_cases hmax : a < maxva
      · rw [Phys.user, hdeep.lookup a hmax]
        exact hu
      · rw [Phys.user, lookup_high m' _ (Nat.not_lt.mp hmax)]
        rfl
    · have hpg : pgsize = 4096 := rfl
      have htf : trapframeVa = 2 ^ 38 - 8192 := rfl
      have hsize := h.size
      have hmv : maxva = 2 ^ 38 := rfl
      have hup := pgRoundUp_eq (h.size.trans (by decide))
      have hhi : a + pgsize ≤ pgRoundUp p.sz := by
        rw [hpg] at ha ⊢
        omega
      have hf : Faulted p m m' := by
        refine .of_allocated h halloc hhi fun b hlo hlt' => ?_
        rw [lookup_page m _ (b := a) (by omega) (by omega) (by rw [hpg] at ha hlt' ⊢; omega), hnone]
      refine ⟨hf, hsup, .inl ?_⟩
      have hflag : has (entry r (pteW ||| pteU ||| pteR)) pteU = true := by
        rw [← has_pteFlags _ (by decide), entry_flags _ (by decide)]
        decide
      rw [hf.space.user_of_lookup hentry hflag, hframe.entry_pa (by decide)]

end Fault

end Xv6.Vm
