import Xv6.UserSpace

namespace Xv6.Vm

open Xv6.Lib Xv6.Lib.Radix Function

section

variable [Layout] {m m' m'' : Phys} {p : Proc} {a va len n k f j pt : Nat} {write : Bool} {ret : Int}
  {seen : List Access} {x : Access}

/-- The user may read, or write, at an address. -/
def Present (m : Phys) (pt : Nat) (write : Bool) (a : Nat) : Prop :=
  ∃ e, m.lookup pt a = some e ∧ has e pteU = true ∧ (write = true → has e pteW = true)

/-- The page of an address is not mapped, but may be brought in. -/
def Absent (m : Phys) (p : Proc) (a : Nat) : Prop :=
  m.lookup p.pagetable a = none ∧ pgRoundDown a < p.sz

omit [Layout] in
theorem Present.lt (h : Present m pt write a) : a < maxva := by
  obtain ⟨e, he, -⟩ := h
  exact lookup_lt he

theorem Extended.present (h : Extended p m m') (hp : Present m p.pagetable write a) :
    Present m' p.pagetable write a := by
  obtain ⟨e, he, hflags⟩ := hp
  exact ⟨e, h.kept a e he, hflags⟩

theorem Extended.present_fresh (h : Extended p m m') (ha : m.lookup p.pagetable a = none)
    (hin : (m'.lookup p.pagetable a).isSome = true) : Present m' p.pagetable write a := by
  obtain ⟨e, he⟩ := Option.isSome_iff_exists.mp hin
  obtain ⟨-, f, rfl⟩ := h.fresh a e ha he
  refine ⟨_, he, ?_, fun _ => ?_⟩
  · rw [← has_pteFlags _ (by decide), entry_flags _ (by decide)]
    decide
  · rw [← has_pteFlags _ (by decide), entry_flags _ (by decide)]
    decide

theorem Extended.cell (h : Extended p m m') {c : Nat × Nat} (hc : m.cell p.pagetable a = some c) :
    m'.cell p.pagetable a = some c := by
  obtain ⟨f, hf, rfl⟩ := Option.map_eq_some_iff.mp hc
  rw [Phys.cell, h.user hf]
  rfl

/-- Where a user copy stands after `n` bytes from `va` on. -/
structure Progress (p : Proc) (write : Bool) (m : Phys) (va len : Nat) (ret : Int) (n : Nat) (seen : List Access)
    (m' : Phys) : Prop extends Extended p m m' where
  ret : ret = 0 ∧ n = len ∨ ret = -1 ∧ n < len ∧ ¬ Present m' p.pagetable write (va + n) ∧
    (Absent m p (va + n) → ¬ Supplies m (3 * ((va + n) / pgsize - va / pgsize + 1)))
  cells : (seen.flatMap Access.cells).map some = (List.range n).map fun j => m'.cell p.pagetable (va + j)
  present : ∀ j, j < n → Present m' p.pagetable write (va + j)

theorem Progress.done (h : ProcSpace m p) (write : Bool) (va : Nat) : Progress p write m va 0 0 0 [] m :=
  ⟨.refl h, .inl ⟨rfl, rfl⟩, rfl, fun _ hj => absurd hj (Nat.not_lt_zero _)⟩

theorem Progress.stop (h : Extended p m m') (hlen : 0 < len) (hnot : ¬ Present m' p.pagetable write va)
    (hwhy : Absent m p va → ¬ Supplies m 3) : Progress p write m va len (-1) 0 [] m' := by
  refine ⟨h, .inr ⟨rfl, hlen, hnot, ?_⟩, rfl, fun _ hj => absurd hj (Nat.not_lt_zero _)⟩
  rw [Nat.add_zero, Nat.sub_self]
  exact hwhy

theorem Progress.move (h : Progress p write m va 0 ret n seen m') (va' : Nat) :
    Progress p write m va' 0 ret n seen m' := by
  obtain ⟨hr, rfl⟩ | hr := h.ret
  · exact ⟨h.toExtended, .inl ⟨hr, rfl⟩, h.cells, fun _ hj => absurd hj (Nat.not_lt_zero _)⟩
  · exact absurd hr.2.1 (Nat.not_lt_zero n)

theorem Progress.cons (hk : k ≤ len) (hpage : k = len ∨ (va + k) / pgsize = va / pgsize + 1)
    (hext : Extended p m m') (hsup : ∀ i, Supplies m (i + 3) → Supplies m' i)
    (hcells : x.cells.map some = (List.range k).map fun j => m'.cell p.pagetable (va + j))
    (hpresent : ∀ j, j < k → Present m' p.pagetable write (va + j))
    (h : Progress p write m' (va + k) (len - k) ret n seen m'') :
    Progress p write m va len ret (k + n) (x :: seen) m'' := by
  have hsame : ∀ j, j < k → m''.cell p.pagetable (va + j) = m'.cell p.pagetable (va + j) := by
    intro j hj
    have hj' := congrArg (·[j]?) hcells
    rw [List.getElem?_map, List.getElem?_map, List.getElem?_range hj, Option.map_some] at hj'
    obtain ⟨c, -, hc⟩ := Option.map_eq_some_iff.mp hj'
    rw [← hc, h.toExtended.cell hc.symm]
  refine ⟨hext.trans h.toExtended, ?_, ?_, fun j hj => ?_⟩
  · obtain ⟨hr, hn⟩ | ⟨hr, hn, hnot, hwhy⟩ := h.ret
    · exact .inl ⟨hr, by omega⟩
    · rw [← Nat.add_assoc]
      refine .inr ⟨hr, by omega, hnot, fun habs hs => ?_⟩
      have hpages : 3 * ((va + k + n) / pgsize - va / pgsize + 1) =
          3 * ((va + k + n) / pgsize - (va + k) / pgsize + 1) + 3 := by
        have hmono : (va + k) / pgsize ≤ (va + k + n) / pgsize := Nat.div_le_div_right (Nat.le_add_right _ _)
        omega
      rw [hpages] at hs
      refine hwhy ⟨?_, habs.2⟩ (hsup _ hs)
      cases hl : m'.lookup p.pagetable (va + k + n) with
      | none => rfl
      | some e =>
        have hin : (m'.lookup p.pagetable (va + k + n)).isSome = true := by rw [hl]; rfl
        exact absurd (h.toExtended.present (hext.present_fresh habs.1 hin)) hnot
  · rw [List.flatMap_cons, List.map_append, hcells, h.cells, List.range_add, List.map_append, List.map_map]
    refine congrArg₂ _ (List.map_congr_left fun j hj => (hsame j (List.mem_range.mp hj)).symm) ?_
    refine List.map_congr_left fun j _ => ?_
    rw [comp_apply, Nat.add_assoc]
  · by_cases hlt : j < k
    · exact h.toExtended.present (hpresent j hlt)
    · have hj' := h.present (j - k) (by omega)
      have hadd : va + k + (j - k) = va + j := by omega
      rwa [hadd] at hj'

omit [Layout] in
theorem chunk_length (hn : n = min (pgsize - (va - pgRoundDown va)) len) (hlen : 0 < len) (hva : va < maxva) :
    0 < n ∧ n ≤ len ∧ n ≤ pgsize - (va - pgRoundDown va) ∧
      (n = len ∨ (va + n) / pgsize = va / pgsize + 1 ∧ (pgRoundDown va + pgsize) % 2 ^ 64 = va + n) := by
  have hpg : pgsize = 4096 := rfl
  have hdown : pgRoundDown va = va / 4096 * 4096 := rfl
  have hmv : maxva = 2 ^ 38 := rfl
  rw [hpg] at hn ⊢
  omega

def Keeps (pt : Nat) (written : List (Nat × Nat)) (m m' : Phys) : Prop :=
  ∀ x j, x ∉ m.tables pt → x ∉ m.free → (x, j) ∉ written → m'.page x j = m.page x j

theorem Keeps.trans {w w' : List (Nat × Nat)} (hext : Extended p m m') (h : Keeps p.pagetable w m m')
    (h' : Keeps p.pagetable w' m' m'') : Keeps p.pagetable (w ++ w') m m'' := by
  intro y j ht hf hw
  rw [List.mem_append, not_or] at hw
  have ht' : y ∉ m'.tables p.pagetable := fun hc => (hext.tables y hc).elim ht hf
  rw [h' y j ht' (fun hc => hf (hext.free y hc)) hw.2, h y j ht hf hw.1]

theorem Faulted.keeps (h : Faulted p m m') : Keeps p.pagetable [] m m' := fun y j ht hf _ => by
  rw [h.others y ht hf]

structure ReadBytes (p : Proc) (m : Phys) (va : Nat) (bytes : List UInt8) (m' : Phys) : Prop where
  bytes : bytes = (List.range bytes.length).map fun j => m.view p.pagetable (va + j)
  view : ∀ a, m'.view p.pagetable a = m.view p.pagetable a
  keeps : Keeps p.pagetable [] m m'

def CopiesIn (p : Proc) (m : Phys) (va len : Nat) (c r : Copied) (m' : Phys) : Prop :=
  ∃ bytes seen, r.bytes = c.bytes ++ bytes ∧ r.seen = c.seen ++ seen ∧
    Progress p false m va len r.ret bytes.length seen m' ∧ ReadBytes p m va bytes m'

theorem CopiesIn.nothing {c : Copied} (hf : Faulted p m m') (h : Progress p false m va len ret 0 [] m') :
    CopiesIn p m va len c { c with ret := ret } m' :=
  ⟨[], [], (List.append_nil _).symm, (List.append_nil _).symm, h, rfl, hf.view, hf.keeps⟩

omit [Layout] in
theorem present_of_user (h : m.user p.pagetable (pgRoundDown va) = some f)
    (hj : j < pgsize - (va - pgRoundDown va)) : Present m p.pagetable false (va + j) := by
  obtain ⟨e, he, hu, -⟩ := user_some h
  exact ⟨e, (lookup_same m _ (chunk_page hj)).trans he, hu, nofun⟩

omit [Layout] in
theorem pgRoundDown_mod (va : Nat) : pgRoundDown va % pgsize = 0 := Nat.mul_mod_left _ _

omit [Layout] in
theorem pgRoundDown_page (va : Nat) : va / pgsize = pgRoundDown va / pgsize := by
  rw [pgRoundDown, Nat.mul_div_cancel _ (by decide : 0 < pgsize)]

theorem not_present_of_none (hs : ProcSpace m p) (h : m.user p.pagetable (pgRoundDown va) = none) :
    ¬ Present m p.pagetable write va := by
  rintro ⟨e, he, hu, -⟩
  have hsome := hs.user_of_lookup he hu
  rw [user_page m _ (pgRoundDown_page va), h] at hsome
  exact absurd hsome (by simp)

theorem FindsPage.stop (hf : FindsPage p m (pgRoundDown va) 0 m') (hlen : 0 < len) :
    Progress p write m va len (-1) 0 [] m' := by
  obtain ⟨hf, -, hu | ⟨-, hu, hwhy⟩⟩ := hf
  · exact absurd rfl (user_ne_zero hu)
  · refine .stop hf.toExtended hlen (not_present_of_none hf.space hu) fun habs hs' => ?_
    obtain hsz | hmap | hno := hwhy
    · exact absurd habs.2 (Nat.not_lt.mpr hsz)
    · rw [← lookup_same m _ (pgRoundDown_page va), habs.1] at hmap
      exact absurd hmap Bool.false_ne_true
    · exact hno hs'

omit [Layout] in
theorem view_chunk (h : m.user pt (pgRoundDown va) = some f)
    (hj : j < pgsize - (va - pgRoundDown va)) : m.view pt (va + j) = m.page f (va - pgRoundDown va + j) := by
  rw [Phys.view, Phys.userByte, cell_chunk h hj]
  rfl

theorem CopiesIn.move {c r : Copied} (h : CopiesIn p m va 0 c r m') (va' : Nat) :
    CopiesIn p m va' 0 c r m' := by
  obtain ⟨bytes, seen, hbytes, hseen, hprog, hread⟩ := h
  have hnil : bytes = [] := by
    obtain ⟨-, hn⟩ | ⟨-, hn, -⟩ := hprog.ret
    · exact List.length_eq_zero_iff.mp hn
    · exact absurd hn (Nat.not_lt_zero _)
  refine ⟨bytes, seen, hbytes, hseen, hprog.move va', ?_, hread.view, hread.keeps⟩
  rw [hnil]
  rfl

theorem CopiesIn.cons {c r : Copied} (hk : k ≤ len) (hpage : k = len ∨ (va + k) / pgsize = va / pgsize + 1)
    (hoff : k ≤ pgsize - (va - pgRoundDown va)) (hf : Faulted p m m')
    (hsup : ∀ i, Supplies m (i + 3) → Supplies m' i) (hu : m'.user p.pagetable (pgRoundDown va) = some f)
    (h : CopiesIn p m' (va + k) (len - k)
      ⟨c.ret, c.bytes ++ m'.load f (va - pgRoundDown va) k, c.seen ++ [⟨f, va - pgRoundDown va, k⟩]⟩ r m'') :
    CopiesIn p m va len c r m'' := by
  obtain ⟨bytes, seen, hbytes, hseen, hprog, hread⟩ := h
  have hload : m'.load f (va - pgRoundDown va) k = (List.range k).map fun j => m.view p.pagetable (va + j) := by
    apply List.map_congr_left
    intro j hj
    rw [← hf.view, view_chunk hu ((List.mem_range.mp hj).trans_le hoff)]
  have hlen : (m'.load f (va - pgRoundDown va) k).length = k := by rw [Phys.load, List.length_map, List.length_range]
  refine ⟨m'.load f (va - pgRoundDown va) k ++ bytes, ⟨f, va - pgRoundDown va, k⟩ :: seen, ?_, ?_, ?_, ?_,
    fun b => ?_, ?_⟩
  · rw [hbytes, List.append_assoc]
  · rw [hseen, List.append_assoc, List.singleton_append]
  · rw [List.length_append, hlen]
    refine .cons hk hpage hf.toExtended hsup (Access.cells_chunk hu hoff) (fun j hj => ?_) hprog
    exact present_of_user hu (hj.trans_le hoff)
  · rw [List.length_append, hlen, List.range_add, List.map_append, List.map_map, ← hload]
    refine congrArg _ (hread.bytes.trans (List.map_congr_left fun j _ => ?_))
    rw [comp_apply, ← hf.view, Nat.add_assoc]
  · rw [hread.view, hf.view]
  · exact hf.keeps.trans hf.toExtended hread.keeps

theorem copyinLoop_ensures (rounds : Nat) (h : ProcSpace m p) (hrounds : len ≤ rounds) (c : Copied)
    (hc : c.ret = 0) :
    Completes (copyinLoop p p.pagetable rounds va len c) m (CopiesIn p m va len c) := by
  induction rounds generalizing m va len c with
  | zero =>
    obtain rfl : len = 0 := Nat.le_zero.mp hrounds
    refine .pure ?_
    have hdone : CopiesIn p m va 0 c { c with ret := 0 } m := .nothing (.refl h) (.done h false va)
    rwa [← hc] at hdone
  | succ rounds ih =>
    rw [copyinLoop]
    by_cases hz : len = 0
    · rw [if_pos hz, hz]
      refine .pure ?_
      have hdone : CopiesIn p m va 0 c { c with ret := 0 } m := .nothing (.refl h) (.done h false va)
      rwa [← hc] at hdone
    · have hpos : 0 < len := Nat.pos_of_ne_zero hz
      rw [if_neg hz]
      refine (userPage_ensures h (pgRoundDown_mod va)).seq fun r m₁ hfind => ?_
      by_cases hr : r = 0
      · rw [hr] at hfind
        rw [if_pos hr]
        exact .pure (.nothing hfind.1 (hfind.stop hpos))
      · rw [if_neg hr]
        obtain ⟨hf, hsup, hu | hu⟩ := hfind
        · obtain ⟨n, hn⟩ : ∃ n, n = min (pgsize - (va - pgRoundDown va)) len := ⟨_, rfl⟩
          have hva : va < maxva := by
            rw [← user_page m₁ _ (pgRoundDown_page va)] at hu
            exact user_lt hu
          obtain ⟨hn0, hnle, hoff, hpage⟩ := chunk_length hn hpos hva
          apply Ensures.bind_get
          rw [← hn]
          have hless : len - n ≤ rounds := by omega
          refine (ih hf.space hless _ ?_).post fun r' m₂ hrest => ?_
          · exact hc
          · refine .cons hnle (hpage.imp id fun hp => hp.1) hoff hf hsup hu ?_
            obtain hlast | ⟨-, hnext⟩ := hpage
            · rw [hlast, Nat.sub_self] at hrest ⊢
              exact hrest.move _
            · rwa [hnext] at hrest
        · exact absurd hu.1 hr

structure WroteBytes (p : Proc) (m : Phys) (va : Nat) (src : List UInt8) (n : Nat) (seen : List Access)
    (m' : Phys) : Prop where
  view : ∀ a, m'.view p.pagetable a =
    if va ≤ a ∧ a < va + n then src.getD (a - va) 0 else m.view p.pagetable a
  keeps : Keeps p.pagetable (seen.flatMap Access.cells) m m'

def CopiesOut (p : Proc) (m : Phys) (va : Nat) (src : List UInt8) (seen : List Access) (r : Int × List Access)
    (m' : Phys) : Prop :=
  ∃ n seen', r.2 = seen ++ seen' ∧ Progress p true m va src.length r.1 n seen' m' ∧
    WroteBytes p m va src n seen' m'

theorem CopiesOut.nothing {src : List UInt8} (hf : Faulted p m m')
    (h : Progress p true m va src.length ret 0 [] m') (seen : List Access) :
    CopiesOut p m va src seen (ret, seen) m' := by
  refine ⟨0, [], (List.append_nil _).symm, h, fun b => ?_, hf.keeps⟩
  rw [if_neg (by omega), hf.view]

theorem CopiesOut.move {r : Int × List Access} (h : CopiesOut p m va [] seen r m') (va' : Nat) :
    CopiesOut p m va' [] seen r m' := by
  obtain ⟨n, seen', hseen, hprog, hwrote⟩ := h
  have hzero : n = 0 := by
    obtain ⟨-, hn⟩ | ⟨-, hn, -⟩ := hprog.ret
    · exact hn
    · exact absurd hn (Nat.not_lt_zero _)
  refine ⟨n, seen', hseen, hprog.move va', fun b => ?_, hwrote.keeps⟩
  rw [hwrote.view, hzero, if_neg (by omega), if_neg (by omega)]

omit [Layout] in
theorem store_page_ne {off x : Nat} {bytes : List UInt8} (m : Phys) (h : x ≠ f) :
    (m.store f off bytes).page x = m.page x := Phys.setPage_page_ne m _ h

omit [Layout] in
theorem store_page_self (m : Phys) (f off : Nat) (bytes : List UInt8) (j : Nat) :
    (m.store f off bytes).page f j =
      if off ≤ j ∧ j < off + bytes.length then bytes.getD (j - off) 0 else m.page f j :=
  congrFun (Phys.setPage_page_self m f _) j

theorem ProcSpace.store (h : ProcSpace m p) (hu : m.user p.pagetable a = some f) (off : Nat)
    (bytes : List UInt8) :
    Extended p m (m.store f off bytes) ∧
      ∀ b, (m.store f off bytes).user p.pagetable b = m.user p.pagetable b := by
  obtain ⟨-, htab, -, -⟩ := h.user_own hu
  have hpages : ∀ x ∈ m.tables p.pagetable, (m.store f off bytes).page x = m.page x := fun x hx =>
    store_page_ne m fun hc => htab (hc ▸ hx)
  have heap : FreeList (m.store f off bytes) := ⟨h.table.heap.nodup, h.table.heap.frame⟩
  obtain ⟨hspace, hlookup, htables⟩ := h.congr hpages heap fun x hx => hx
  refine ⟨⟨hspace, fun b e he => (hlookup b).trans he, fun b e hn he => ?_, fun x hx => hx, fun x hx => ?_⟩,
    fun b => ?_⟩
  · rw [hlookup, hn] at he
    exact absurd he (by simp)
  · rw [htables] at hx
    exact .inl hx
  · rw [Phys.user, Phys.user, hlookup]

theorem ProcSpace.view_store (h : ProcSpace m p) (hu : m.user p.pagetable (pgRoundDown va) = some f)
    {bytes : List UInt8} (hlen : bytes.length ≤ pgsize - (va - pgRoundDown va)) (b : Nat) :
    (m.store f (va - pgRoundDown va) bytes).view p.pagetable b =
      if va ≤ b ∧ b < va + bytes.length then bytes.getD (b - va) 0 else m.view p.pagetable b := by
  have hpg : pgsize = 4096 := rfl
  have hdown : pgRoundDown va = va / 4096 * 4096 := rfl
  have hsame := (h.store hu (va - pgRoundDown va) bytes).2 b
  rw [hpg] at hlen
  by_cases hpage : b / pgsize = pgRoundDown va / pgsize
  · have hb : m.user p.pagetable b = some f := (user_page m _ hpage).trans hu
    rw [view_of_user (hsame.trans hb), view_of_user hb, store_page_self]
    rw [hpg] at hpage ⊢
    by_cases hin : va ≤ b ∧ b < va + bytes.length
    · have hoff : b % 4096 - (va - pgRoundDown va) = b - va := by omega
      rw [if_pos hin, if_pos (by omega), hoff]
    · rw [if_neg hin, if_neg (by omega)]
  · have hout : ¬ (va ≤ b ∧ b < va + bytes.length) := by
      rw [hpg] at hpage
      omega
    rw [if_neg hout]
    cases hb : m.user p.pagetable b with
    | none => rw [view_of_none hb, view_of_none (hsame.trans hb)]
    | some g =>
      have hne : g ≠ f := fun hc => hpage (h.user_once hb (hc ▸ hu))
      rw [view_of_user hb, view_of_user (hsame.trans hb), store_page_ne m hne]

omit [Layout] in
theorem readPte_of_lookup {e : Nat} (h : m.lookup pt a = some e) :
    ∃ ptr, readPte pt a m = .ok (some (ptr, e)) m := by
  have ha := lookup_lt h
  rw [lookup_eq m pt ha] at h
  obtain ⟨t, ht, he⟩ := Option.bind_eq_some_iff.mp h
  split at he
  · exact ⟨(t, px 0 a), by rw [readPte_eq m pt ha, ht, Option.map_some, Option.some.inj he]⟩
  · exact absurd he (by simp)

theorem CopiesOut.cons {src : List UInt8} {r : Int × List Access} (hk : k ≤ src.length)
    (hpage : k = src.length ∨ (va + k) / pgsize = va / pgsize + 1) (hoff : k ≤ pgsize - (va - pgRoundDown va))
    (hf : Faulted p m m') (hsup : ∀ i, Supplies m (i + 3) → Supplies m' i)
    (hu : m'.user p.pagetable (pgRoundDown va) = some f)
    (hpresent : ∀ j, j < k → Present m' p.pagetable true (va + j))
    (h : CopiesOut p (m'.store f (va - pgRoundDown va) (src.take k)) (va + k) (src.drop k)
      (seen ++ [⟨f, va - pgRoundDown va, k⟩]) r m'') :
    CopiesOut p m va src seen r m'' := by
  obtain ⟨n, seen', hseen, hprog, hwrote⟩ := h
  obtain ⟨hext, huser⟩ := hf.space.store hu (va - pgRoundDown va) (src.take k)
  have htake : (src.take k).length = k := by rw [List.length_take, Nat.min_eq_left hk]
  have hcells := Access.cells_chunk hu hoff
  refine ⟨k + n, ⟨f, va - pgRoundDown va, k⟩ :: seen', ?_, ?_, fun b => ?_, ?_⟩
  · rw [hseen, List.append_assoc, List.singleton_append]
  · rw [List.length_drop] at hprog
    refine .cons hk hpage (hf.toExtended.trans hext) hsup ?_ (fun j hj => hext.present (hpresent j hj)) hprog
    rw [hcells]
    refine List.map_congr_left fun j _ => ?_
    rw [Phys.cell, Phys.cell, huser]
  · rw [hwrote.view, hf.space.view_store hu (htake.trans_le hoff), htake, hf.view]
    by_cases hlow : va + k ≤ b ∧ b < va + k + n
    · have hidx : k + (b - (va + k)) = b - va := by omega
      rw [if_pos hlow, if_pos (by omega), List.getD_eq_getElem?_getD, List.getElem?_drop, hidx,
        List.getD_eq_getElem?_getD]
    · rw [if_neg hlow]
      by_cases hin : va ≤ b ∧ b < va + k
      · rw [if_pos hin, if_pos (by omega), List.getD_eq_getElem?_getD, List.getElem?_take_of_lt (by omega),
          List.getD_eq_getElem?_getD]
      · rw [if_neg hin, if_neg (by omega)]
  · rw [List.flatMap_cons]
    refine Keeps.trans (hf.toExtended.trans hext) (fun y j hy hfree hw => ?_) hwrote.keeps
    rw [← congrFun (hf.others y hy hfree) j]
    obtain rfl | hyf := eq_or_ne y f
    · rw [store_page_self, htake, if_neg]
      rintro ⟨hlo, hhi⟩
      refine hw (List.mem_map.mpr ⟨j - (va - pgRoundDown va), List.mem_range.mpr ?_, ?_⟩)
      · dsimp only
        omega
      · dsimp only
        rw [Nat.add_sub_cancel' hlo]
    · rw [store_page_ne m' hyf]

theorem copyoutLoop_ensures {src : List UInt8} (rounds : Nat) (h : ProcSpace m p) (hrounds : src.length ≤ rounds)
    (seen : List Access) :
    Completes (copyoutLoop p p.pagetable rounds va src seen) m (CopiesOut p m va src seen) := by
  have hdone : ∀ {m : Phys} {va : Nat} (seen : List Access), ProcSpace m p → CopiesOut p m va [] seen (0, seen) m :=
    fun seen h => .nothing (.refl h) (.done h true _) seen
  induction rounds generalizing m va src seen with
  | zero =>
    obtain rfl : src = [] := List.length_eq_zero_iff.mp (Nat.le_zero.mp hrounds)
    exact .pure (hdone seen h)
  | succ rounds ih =>
    rw [copyoutLoop]
    by_cases hz : src = []
    · rw [if_pos hz, hz]
      exact .pure (hdone seen h)
    · have hpos : 0 < src.length := List.length_pos_of_ne_nil hz
      rw [if_neg hz]
      dsimp only
      by_cases hmax : maxva ≤ pgRoundDown va
      · rw [if_pos hmax]
        have hle : pgRoundDown va ≤ va := Nat.div_mul_le_self va pgsize
        refine .pure (.nothing (.refl h) (.stop (.refl h) hpos (fun hp => ?_) fun habs => ?_) seen)
        · exact absurd hp.lt (Nat.not_lt.mpr (hmax.trans hle))
        · have htop : trapframeVa ≤ maxva := by decide
          have hsize := h.size
          have := habs.2
          omega
      · rw [if_neg hmax]
        refine (userPage_ensures h (pgRoundDown_mod va)).seq fun r m₁ hfind => ?_
        by_cases hr : r = 0
        · rw [hr] at hfind
          rw [if_pos hr]
          exact .pure (.nothing hfind.1 (hfind.stop hpos) seen)
        · rw [if_neg hr]
          obtain ⟨hf, hsup, hu | hu⟩ := hfind
          · obtain ⟨e, he, hflag, -⟩ := user_some hu
            obtain ⟨ptr, hread⟩ := readPte_of_lookup he
            refine Ensures.bind_eq hread ?_
            dsimp only
            have hsame : m₁.lookup p.pagetable va = some e := (lookup_same m₁ _ (pgRoundDown_page va)).trans he
            by_cases hw : has e pteW = false
            · have hnot : ¬ Present m₁ p.pagetable true va := by
                rintro ⟨e', he', -, hw'⟩
                rw [hsame] at he'
                rw [← Option.some.inj he', hw] at hw'
                exact absurd (hw' rfl) Bool.false_ne_true
              rw [if_pos hw]
              refine .pure (.nothing hf (.stop hf.toExtended hpos hnot fun habs => ?_) seen)
              exact absurd (hf.present_fresh habs.1 (by rw [hsame]; rfl)) hnot
            · obtain ⟨n, hn⟩ : ∃ n, n = min (pgsize - (va - pgRoundDown va)) src.length := ⟨_, rfl⟩
              obtain ⟨hn0, hnle, hoff, hpage⟩ := chunk_length hn hpos (lookup_lt hsame)
              have hpresent : ∀ j, j < n → Present m₁ p.pagetable true (va + j) := by
                intro j hj
                refine ⟨e, ?_, hflag, fun _ => Bool.not_eq_false _ ▸ hw⟩
                rw [lookup_same m₁ _ (chunk_page (hj.trans_le hoff)), he]
              rw [if_neg hw]
              apply Ensures.bind_modify
              rw [← hn]
              have hless : (src.drop n).length ≤ rounds := by
                rw [List.length_drop]
                omega
              have hspace := (hf.space.store hu (va - pgRoundDown va) (src.take n)).1.space
              refine (ih hspace hless _).post fun r' m₂ hrest => ?_
              refine .cons hnle (hpage.imp id fun hp => hp.1) hoff hf hsup hu hpresent ?_
              obtain hlast | ⟨-, hnext⟩ := hpage
              · rw [hlast, List.drop_length] at hrest ⊢
                exact hrest.move _
              · rwa [hnext] at hrest
          · exact absurd hu.1 hr

def addr (va j : Nat) : Nat := (va + j) % 2 ^ 64

structure UserCopied (p : Proc) (write : Bool) (m : Phys) (va len : Nat) (ret : Int) (n : Nat)
    (seen : List Access) (m' : Phys) : Prop extends Extended p m m' where
  count : ret = 0 ∧ n = len ∨ ret = -1 ∧ n < len
  allowed : ret = 0 ↔ ∀ j, j < len → Present m p.pagetable write (addr va j) ∨
    Absent m p (addr va j) ∧ (m'.lookup p.pagetable (addr va j)).isSome = true
  enough : Supplies m (3 * (len / pgsize + 2)) →
    (ret = 0 ↔ ∀ j, j < len → Present m p.pagetable write (addr va j) ∨ Absent m p (addr va j))
  cells : (seen.flatMap Access.cells).map some = (List.range n).map fun j => m'.cell p.pagetable (addr va j)
  heap : ∀ c ∈ seen.flatMap Access.cells, Frame c.1 ∧ c.1 ∉ m'.tables p.pagetable ∧ c.1 ∉ m'.free
  user : ∀ c ∈ seen.flatMap Access.cells, ∀ a e, m'.lookup p.pagetable a = some e → has e pteU = false →
    pte2pa e ≠ c.1

omit [Layout] in
theorem addr_of_all {P : Nat → Prop} (hva : va < 2 ^ 64) (hP : ∀ a, P a → a < maxva)
    (h : ∀ j, j < n → P (addr va j)) : ∀ j, j < n → addr va j = va + j := by
  have hmv : maxva = 2 ^ 38 := rfl
  intro j hj
  induction j with
  | zero => exact Nat.mod_eq_of_lt hva
  | succ j ih =>
    have hlast := hP _ (h j (by omega))
    rw [ih (by omega)] at hlast
    exact Nat.mod_eq_of_lt (by omega)

omit [Layout] in
theorem forall_addr {P : Nat → Prop} (hva : va < 2 ^ 64) (hP : ∀ a, P a → a < maxva) :
    (∀ j, j < n → P (addr va j)) ↔ ∀ j, j < n → P (va + j) := by
  have hlt : maxva < 2 ^ 64 := by decide
  constructor
  · intro h j hj
    rw [← addr_of_all hva hP h j hj]
    exact h j hj
  · intro h j hj
    have hj' : addr va j = va + j := Nat.mod_eq_of_lt ((hP _ (h j hj)).trans hlt)
    rw [hj']
    exact h j hj

theorem ProcSpace.absent_lt (h : ProcSpace m p) (ha : Absent m p a) : a < maxva := by
  have hpg : pgsize = 4096 := rfl
  have htf : trapframeVa = 2 ^ 38 - 8192 := rfl
  have hmv : maxva = 2 ^ 38 := rfl
  have hsize := h.size
  have hlt := ha.2
  rw [pgRoundDown, hpg] at hlt
  omega

theorem Progress.copied (hspace : ProcSpace m p) (h : Progress p write m va len ret n seen m')
    (hva : va < 2 ^ 64) : UserCopied p write m va len ret n seen m' := by
  have hzero : (-1 : Int) ≠ 0 := by decide
  have haddr : ∀ j, j < n → addr va j = va + j := fun j hj =>
    Nat.mod_eq_of_lt ((h.present j hj).lt.trans (by decide))
  have hcell : ∀ c ∈ seen.flatMap Access.cells, ∃ a, m'.user p.pagetable a = some c.1 := by
    intro c hc
    have hmem := List.mem_map_of_mem (f := some) hc
    rw [h.cells] at hmem
    obtain ⟨j, -, hj⟩ := List.mem_map.mp hmem
    obtain ⟨f, hf, rfl⟩ := Option.map_eq_some_iff.mp hj
    exact ⟨va + j, hf⟩
  have hfirst : ret = 0 → ∀ j, j < len → Present m p.pagetable write (va + j) ∨
      Absent m p (va + j) ∧ (m'.lookup p.pagetable (va + j)).isSome = true := by
    intro hr j hj
    obtain ⟨-, rfl⟩ | ⟨hr', -⟩ := h.ret
    · obtain ⟨e, he, hflags⟩ := h.present j hj
      cases hl : m.lookup p.pagetable (va + j) with
      | some e' =>
        have hsame := (h.kept _ e' hl).symm.trans he
        exact .inl ⟨e, Option.some.inj hsame ▸ hl, hflags⟩
      | none => exact .inr ⟨⟨hl, (h.fresh _ e hl he).1⟩, by rw [he]; rfl⟩
    · exact absurd (hr'.symm.trans hr) hzero
  refine ⟨h.toExtended, h.ret.imp id fun hr => ⟨hr.1, hr.2.1⟩, ?_, fun hs => ?_, ?_, fun c hc => ?_,
    fun c hc b e he hflag => ?_⟩
  · have hlt : ∀ a, (Present m p.pagetable write a ∨
        Absent m p a ∧ (m'.lookup p.pagetable a).isSome = true) → a < maxva := fun b hb =>
      hb.elim Present.lt fun hb => hspace.absent_lt hb.1
    refine Iff.trans ?_ (forall_addr hva hlt).symm
    refine ⟨hfirst, fun hall => ?_⟩
    obtain ⟨hr, -⟩ | ⟨-, hn, hnot, -⟩ := h.ret
    · exact hr
    · obtain hp | ⟨hab, hin⟩ := hall n hn
      · exact absurd (h.toExtended.present hp) hnot
      · exact absurd (h.present_fresh hab.1 hin) hnot
  · have hlt : ∀ a, (Present m p.pagetable write a ∨ Absent m p a) → a < maxva := fun b hb =>
      hb.elim Present.lt hspace.absent_lt
    refine Iff.trans ?_ (forall_addr hva hlt).symm
    refine ⟨fun hr j hj => (hfirst hr j hj).imp id And.left, fun hall => ?_⟩
    obtain ⟨hr, -⟩ | ⟨-, hn, hnot, hwhy⟩ := h.ret
    · exact hr
    · obtain hp | hab := hall n hn
      · exact absurd (h.toExtended.present hp) hnot
      · have hpages : (va + n) / pgsize - va / pgsize + 1 ≤ len / pgsize + 2 := by
          have hpg : pgsize = 4096 := rfl
          rw [hpg]
          omega
        exact absurd (hs.mono (Nat.mul_le_mul_left 3 hpages)) (hwhy hab)
  · rw [h.cells]
    exact List.map_congr_left fun j hj => by rw [haddr j (List.mem_range.mp hj)]
  · obtain ⟨b, hb⟩ := hcell c hc
    obtain ⟨hframe, htab, hfree, -⟩ := h.space.user_own hb
    exact ⟨hframe, htab, hfree⟩
  · obtain ⟨b', hb'⟩ := hcell c hc
    exact h.space.user_ne hb' he hflag

/-- Copies from and to user memory reach exactly the pages of the user, absent ones included. -/
theorem user_copies_reach_user_pages (h : ProcSpace m p) (hva : va < 2 ^ 64) :
    (∀ len, Ensures (copyin p p.pagetable va len) m
      (fun c m' => UserCopied p false m va len c.ret c.bytes.length c.seen m' ∧
        c.bytes = (List.range c.bytes.length).map (fun j => m.view p.pagetable (addr va j)) ∧
        (∀ a, m'.view p.pagetable a = m.view p.pagetable a) ∧ Keeps p.pagetable [] m m') (fun _ _ => False)) ∧
    ∀ src, Ensures (copyout p p.pagetable va src) m
      (fun r m' => ∃ n, UserCopied p true m va src.length r.1 n r.2 m' ∧
        (∀ j, j < n → m'.view p.pagetable (addr va j) = src.getD j 0) ∧
        (∀ a, (∀ j, j < n → a ≠ addr va j) → m'.view p.pagetable a = m.view p.pagetable a) ∧
        Keeps p.pagetable (r.2.flatMap Access.cells) m m') (fun _ _ => False) := by
  have haddr : ∀ {write len ret n seen m'}, Progress p write m va len ret n seen m' →
      ∀ j, j < n → addr va j = va + j := fun hprog j hj =>
    Nat.mod_eq_of_lt ((hprog.present j hj).lt.trans (by decide))
  constructor
  · intro len
    refine (copyinLoop_ensures len h (Nat.le_refl _) ⟨0, [], []⟩ rfl).post ?_
    rintro ⟨ret, _, _⟩ m' ⟨bytes, seen, rfl, rfl, hprog, hread⟩
    refine ⟨hprog.copied h hva, hread.bytes.trans (List.map_congr_left fun j hj => ?_), hread.view, hread.keeps⟩
    rw [haddr hprog j (List.mem_range.mp hj)]
  · intro src
    refine (copyoutLoop_ensures src.length h (Nat.le_refl _) []).post ?_
    rintro ⟨ret, _⟩ m' ⟨n, seen, rfl, hprog, hwrote⟩
    refine ⟨n, hprog.copied h hva, fun j hj => ?_, fun b hb => ?_, hwrote.keeps⟩
    · rw [haddr hprog j hj, hwrote.view, if_pos (by omega), Nat.add_sub_cancel_left]
    · rw [hwrote.view, if_neg]
      rintro ⟨hlo, hhi⟩
      refine hb (b - va) (by omega) ?_
      rw [haddr hprog _ (by omega)]
      omega

end

/-- Two bytes are written to a page that is absent, and it is brought in with all that is free. -/
theorem user_copies_reach_user_pages_small :
    Ensures (@copyout smallLayout ⟨0x80023000, pgsize, 0x80022000⟩ 0x80023000 7 [1, 2]) (procPhys 6)
      (fun r m' => r.1 = 0 ∧ m'.free = [] ∧ m'.view 0x80023000 (addr 7 1) = 2) (fun _ _ => False) := by
  have hrun : Ensures (@copyout smallLayout ⟨0x80023000, pgsize, 0x80022000⟩ 0x80023000 7 [1, 2]) (procPhys 6)
      (fun r m' => r.1 = 0 ∧ m'.free = []) (fun _ _ => False) := by
    decide +kernel
  have hcopy := (@user_copies_reach_user_pages smallLayout _ _ 7
    (procPhys_space 6 (by decide) (by decide +kernel)) (by decide)).2 [1, 2]
  refine (hrun.and hcopy).imp ?_ fun _ _ he => he.1
  rintro r m' ⟨⟨hr, hfree⟩, n, hcopied, hview, -⟩
  have hn : n = 2 := by
    obtain hn | hn := @UserCopied.count smallLayout _ _ _ _ _ _ _ _ _ hcopied
    · exact hn.2
    · exact absurd (hn.1.symm.trans hr) (by decide)
  exact ⟨hr, hfree, hview 1 (by omega)⟩

end Xv6.Vm
