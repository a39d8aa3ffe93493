import Xv6.PageTable

namespace Xv6.Vm

open Xv6.Lib Xv6.Lib.Radix Function

variable {m : Phys} {pt a b f j k max srcva : Nat} {bytes text : List UInt8} {seen : List Access}

/-- The page that a user sees at an address. -/
def Phys.user (m : Phys) (pt a : Nat) : Option Nat :=
  (m.lookup pt a).bind fun e => if has e pteU = true ∧ pte2pa e ≠ 0 then some (pte2pa e) else none

/-- The byte of physical memory that a user sees at an address, as a page and an offset. -/
def Phys.cell (m : Phys) (pt a : Nat) : Option (Nat × Nat) := (m.user pt a).map fun f => (f, a % pgsize)

def Phys.userByte (m : Phys) (pt a : Nat) : Option UInt8 := (m.cell pt a).map fun c => m.page c.1 c.2

theorem lookup_high (m : Phys) (pt : Nat) (ha : maxva ≤ a) : m.lookup pt a = none := by
  have hread : readPte pt a m = .error "walk" m := by
    rw [readPte]
    apply bind_of_error
    rw [walk, if_pos ha]
    rfl
  rw [Phys.lookup, hread]

theorem lookup_same (m : Phys) (pt : Nat) (h : a / pgsize = b / pgsize) : m.lookup pt a = m.lookup pt b := by
  have hpg : pgsize = 4096 := rfl
  have hmv : maxva = 2 ^ 38 := rfl
  by_cases ha : a < maxva
  · refine lookup_page m pt ha ?_ h
    rw [hpg] at h
    omega
  · rw [hpg] at h
    rw [lookup_high m pt (Nat.not_lt.mp ha), lookup_high m pt (by omega)]

theorem user_page (m : Phys) (pt : Nat) (h : a / pgsize = b / pgsize) : m.user pt a = m.user pt b := by
  rw [Phys.user, Phys.user, lookup_same m pt h]

theorem user_lt (h : m.user pt a = some f) : a < maxva := by
  by_contra ha
  rw [Phys.user, lookup_high m pt (Nat.not_lt.mp ha)] at h
  exact absurd h (by simp)

theorem user_ne_zero (h : m.user pt a = some f) : f ≠ 0 := by
  obtain ⟨e, -, he⟩ := Option.bind_eq_some_iff.mp h
  split at he
  · next hc =>
    rw [← Option.some.inj he]
    exact hc.2
  · exact absurd he (by simp)

theorem walkaddr_eq (m : Phys) (pt a : Nat) : walkaddr pt a m = .ok ((m.user pt a).getD 0) m := by
  rw [walkaddr, Phys.user]
  by_cases ha : a < maxva
  · rw [if_neg (Nat.not_le.mpr ha), bind_of_ok (readPte_eq m pt ha), lookup_eq m pt ha]
    cases node m.link pt (path a) with
    | none => rfl
    | some t =>
      dsimp only [Option.map_some, Option.bind_some]
      generalize m.word t (px 0 a) = e
      cases has e pteV with
      | false => rfl
      | true =>
        rw [if_neg Bool.true_eq_false.mp, if_pos rfl, Option.bind_some]
        cases has e pteU with
        | false =>
          rw [if_pos rfl, if_neg fun h => Bool.false_ne_true h.1]
          rfl
        | true =>
          rw [if_neg Bool.true_eq_false.mp]
          by_cases hz : pte2pa e = 0
          · rw [if_neg fun h => h.2 hz, hz]
            rfl
          · rw [if_pos ⟨rfl, hz⟩]
            rfl
  · rw [if_pos (Nat.not_lt.mp ha), lookup_high m pt (Nat.not_lt.mp ha)]
    rfl

theorem chunk_page (hj : j < pgsize - (a - pgRoundDown a)) :
    (a + j) / pgsize = pgRoundDown a / pgsize := by
  have hpg : pgsize = 4096 := rfl
  have hdown : pgRoundDown a = a / 4096 * 4096 := rfl
  rw [hpg] at hj ⊢
  omega

theorem cell_chunk (h : m.user pt (pgRoundDown a) = some f) (hj : j < pgsize - (a - pgRoundDown a)) :
    m.cell pt (a + j) = some (f, a - pgRoundDown a + j) := by
  have hpg : pgsize = 4096 := rfl
  have hdown : pgRoundDown a = a / 4096 * 4096 := rfl
  have hsame : m.user pt (a + j) = some f := (user_page m pt (chunk_page hj)).trans h
  have hoff : (a + j) % pgsize = a - pgRoundDown a + j := by
    rw [hpg] at hj ⊢
    omega
  rw [Phys.cell, hsame, Option.map_some, hoff]

def Access.cells (a : Access) : List (Nat × Nat) := (List.range a.len).map fun j => (a.page, a.off + j)

theorem scanPage_spec (page : Nat → UInt8) (n off : Nat) :
    (scanPage page n off).1 = (List.range (scanPage page n off).1.length).map (fun j => page (off + j)) ∧
      (scanPage page n off).1.length ≤ n ∧
      ((scanPage page n off).2 = true → ∃ text, (scanPage page n off).1 = text ++ [0] ∧ 0 ∉ text) ∧
      ((scanPage page n off).2 = false → (scanPage page n off).1.length = n ∧ 0 ∉ (scanPage page n off).1) := by
  induction n generalizing off with
  | zero => exact ⟨rfl, Nat.le_refl 0, nofun, fun _ => ⟨rfl, List.not_mem_nil⟩⟩
  | succ n ih =>
    obtain ⟨hbytes, hlen, hfound, hmissing⟩ := ih (off + 1)
    rw [scanPage]
    split
    · next hzero =>
      refine ⟨?_, Nat.le_add_left 1 n, fun _ => ⟨[], rfl, List.not_mem_nil⟩, nofun⟩
      rw [List.length_singleton, List.range_one, List.map_singleton, Nat.add_zero, hzero]
    · next hzero =>
      dsimp only
      generalize scanPage page n (off + 1) = rest at *
      refine ⟨?_, Nat.succ_le_succ hlen, fun hf => ?_, fun hf => ?_⟩
      · rw [List.length_cons, List.range_succ_eq_map, List.map_cons, List.map_map, Nat.add_zero]
        refine congrArg _ (hbytes.trans ?_)
        apply List.map_congr_left
        intro j _
        rw [comp_apply, Nat.succ_eq_add_one, Nat.add_assoc, Nat.add_comm 1]
      · obtain ⟨text, htext, hnot⟩ := hfound hf
        refine ⟨page off :: text, by rw [htext, List.cons_append], ?_⟩
        rw [List.mem_cons, not_or]
        exact ⟨Ne.symm hzero, hnot⟩
      · obtain ⟨hall, hnot⟩ := hmissing hf
        refine ⟨by rw [List.length_cons, hall], ?_⟩
        rw [List.mem_cons, not_or]
        exact ⟨Ne.symm hzero, hnot⟩

theorem Access.cells_chunk (h : m.user pt (pgRoundDown a) = some f) (hk : k ≤ pgsize - (a - pgRoundDown a)) :
    (Access.cells ⟨f, a - pgRoundDown a, k⟩).map some = (List.range k).map fun j => m.cell pt (a + j) := by
  rw [Access.cells, List.map_map]
  apply List.map_congr_left
  intro j hj
  have hjk : j < k := List.mem_range.mp hj
  rw [comp_apply, cell_chunk h (by omega)]

structure Scanned (m : Phys) (pt srcva max : Nat) (ret : Int) (bytes : List UInt8) (seen : List Access) :
    Prop where
  cells : (seen.flatMap Access.cells).map some = (List.range bytes.length).map fun j => m.cell pt (srcva + j)
  stored : bytes = (seen.flatMap Access.cells).map fun c => m.page c.1 c.2
  length : bytes.length ≤ max
  found : ret = 0 → ∃ text, bytes = text ++ [0] ∧ 0 ∉ text
  missing : ret ≠ 0 → ret = -1 ∧ 0 ∉ bytes ∧ (bytes.length = max ∨ m.cell pt (srcva + bytes.length) = none)

theorem Scanned.nothing (h : max = 0 ∨ m.cell pt srcva = none) :
    Scanned m pt srcva max (-1) [] [] :=
  ⟨rfl, rfl, Nat.zero_le max, nofun, fun _ => ⟨rfl, List.not_mem_nil, h.imp Eq.symm id⟩⟩

theorem Scanned.move {srcva : Nat} {ret : Int} {bytes : List UInt8} {seen : List Access}
    (h : Scanned m pt srcva 0 ret bytes seen) (srcva' : Nat) : Scanned m pt srcva' 0 ret bytes seen := by
  have hnil : bytes = [] := List.length_eq_zero_iff.mp (Nat.le_zero.mp h.length)
  refine ⟨?_, h.stored, h.length, h.found, fun hr => ?_⟩
  · rw [h.cells, hnil]
    rfl
  · obtain ⟨hret, hnot, -⟩ := h.missing hr
    exact ⟨hret, hnot, .inl (by rw [hnil]; rfl)⟩

theorem Scanned.cons {srcva max n : Nat} {ret : Int} {first bytes : List UInt8} {seen : List Access} {x : Access}
    (hcells : x.cells.map some = (List.range n).map fun j => m.cell pt (srcva + j))
    (hstored : first = x.cells.map fun c => m.page c.1 c.2) (hlen : first.length = n) (hzero : 0 ∉ first)
    (hle : n ≤ max) (h : Scanned m pt (srcva + n) (max - n) ret bytes seen) :
    Scanned m pt srcva max ret (first ++ bytes) (x :: seen) := by
  have hlength := h.length
  refine ⟨?_, ?_, ?_, fun hr => ?_, fun hr => ?_⟩
  · rw [List.flatMap_cons, List.map_append, hcells, h.cells, List.length_append, hlen, List.range_add,
      List.map_append, List.map_map]
    refine congrArg _ (List.map_congr_left fun j _ => ?_)
    rw [comp_apply, Nat.add_assoc]
  · rw [List.flatMap_cons, List.map_append, ← hstored, ← h.stored]
  · rw [List.length_append]
    omega
  · obtain ⟨text, htext, hnot⟩ := h.found hr
    refine ⟨first ++ text, by rw [htext, List.append_assoc], ?_⟩
    rw [List.mem_append, not_or]
    exact ⟨hzero, hnot⟩
  · obtain ⟨hret, hnot, hend⟩ := h.missing hr
    rw [List.mem_append, not_or, List.length_append, hlen, ← Nat.add_assoc]
    exact ⟨hret, ⟨hzero, hnot⟩, hend.imp (fun _ => by omega) id⟩

def Scans (m : Phys) (pt srcva max : Nat) (c : Copied) (x : EStateM.Result String Phys Copied) : Prop :=
  ∃ ret bytes seen, x = .ok ⟨ret, c.bytes ++ bytes, c.seen ++ seen⟩ m ∧ Scanned m pt srcva max ret bytes seen

theorem Scans.stop {c : Copied} (h : max = 0 ∨ m.cell pt srcva = none) :
    Scans m pt srcva max c (.ok { c with ret := -1 } m) := by
  refine ⟨-1, [], [], ?_, .nothing h⟩
  rw [List.append_nil, List.append_nil]

theorem copyinstrLoop_scans (rounds srcva max : Nat) (c : Copied) (hrounds : max ≤ rounds) :
    Scans m pt srcva max c (copyinstrLoop pt rounds srcva max c m) := by
  have hpg : pgsize = 4096 := rfl
  induction rounds generalizing srcva max c with
  | zero => exact .stop (.inl (by omega))
  | succ rounds ih =>
    rw [copyinstrLoop]
    by_cases hz : max = 0
    · rw [if_pos hz]
      exact .stop (.inl hz)
    · rw [if_neg hz, bind_of_ok (walkaddr_eq m pt _)]
      cases hf : m.user pt (pgRoundDown srcva) with
      | none =>
        refine .stop (.inr ?_)
        rw [Phys.cell, user_page m pt (b := pgRoundDown srcva), hf]
        · rfl
        · rw [pgRoundDown, hpg]
          omega
      | some f =>
        have hne : (some f).getD 0 ≠ 0 := user_ne_zero hf
        have hlt := user_lt hf
        obtain ⟨n, hn⟩ : ∃ n, n = min (pgsize - (srcva - pgRoundDown srcva)) max := ⟨_, rfl⟩
        obtain ⟨hbytes, hlen, hfound, hmissing⟩ := scanPage_spec (m.page f) n (srcva - pgRoundDown srcva)
        rw [if_neg hne]
        have hget : ∀ g : Phys → M Copied, (get >>= g) m = g m m := fun _ => rfl
        rw [hget, Option.getD_some, ← hn]
        generalize scanPage (m.page f) n (srcva - pgRoundDown srcva) = scan at *
        obtain ⟨first, gotNull⟩ := scan
        dsimp only at *
        have hcells := Access.cells_chunk (k := first.length) hf (by omega)
        have hstored : first = (Access.cells ⟨f, srcva - pgRoundDown srcva, first.length⟩).map
            fun c => m.page c.1 c.2 := by
          rw [Access.cells, List.map_map]
          exact hbytes
        cases gotNull with
        | true =>
          refine ⟨0, first, [⟨f, srcva - pgRoundDown srcva, first.length⟩], rfl, ?_, ?_, by omega,
            fun _ => hfound rfl, fun hc => absurd rfl hc⟩
          · rw [List.flatMap_singleton, hcells]
          · rw [List.flatMap_singleton]
            exact hstored
        | false =>
          obtain ⟨hall, hzero⟩ := hmissing rfl
          rw [hall] at hcells
          obtain ⟨c', hc'⟩ : ∃ c' : Copied, c' = ⟨0, c.bytes ++ first,
            c.seen ++ [⟨f, srcva - pgRoundDown srcva, first.length⟩]⟩ := ⟨_, rfl⟩
          have hdown : pgRoundDown srcva = srcva / 4096 * 4096 := rfl
          rw [hpg] at hn
          have hmv : maxva = 2 ^ 38 := rfl
          obtain ⟨ret, bytes, seen, hloop, hscan⟩ :=
            ih ((pgRoundDown srcva + pgsize) % 2 ^ 64) (max - n) c' (by omega)
          have hnext : Scanned m pt (srcva + n) (max - n) ret bytes seen := by
            by_cases hlast : n = max
            · rw [hlast, Nat.sub_self] at hscan ⊢
              exact hscan.move _
            · have haddr : (pgRoundDown srcva + pgsize) % 2 ^ 64 = srcva + n := by
                rw [hpg]
                omega
              rwa [haddr] at hscan
          refine ⟨ret, first ++ bytes, _ :: seen, ?_, .cons hcells ?_ hall hzero (by omega) hnext⟩
          · rw [if_neg Bool.false_ne_true, ← hc', hloop, hc', List.append_assoc, List.append_assoc,
              List.singleton_append, hall]
          · rw [hall] at hstored
            exact hstored

/-- The user bytes from `srcva` on are a string of `k` bytes and its NUL. -/
def IsString (m : Phys) (pt srcva k : Nat) : Prop :=
  (∀ j, j < k → ∃ c, m.userByte pt (srcva + j) = some c ∧ c ≠ 0) ∧ m.userByte pt (srcva + k) = some 0

theorem Scanned.byte {ret : Int} (h : Scanned m pt srcva max ret bytes seen) (hj : j < bytes.length) :
    m.userByte pt (srcva + j) = bytes[j]? := by
  have hcell := congrArg (·[j]?) h.cells
  have hbyte := congrArg (·[j]?) h.stored
  rw [List.getElem?_map, List.getElem?_map, List.getElem?_range hj, Option.map_some] at hcell
  rw [List.getElem?_map] at hbyte
  rw [hbyte, Phys.userByte]
  cases hx : (seen.flatMap Access.cells)[j]? with
  | none =>
    rw [hx] at hcell
    exact absurd hcell (by simp)
  | some x =>
    rw [hx, Option.map_some] at hcell
    rw [← Option.some.inj hcell]

theorem IsString.unique {l : Nat} (hk : IsString m pt srcva k) (hl : IsString m pt srcva l) : k = l := by
  have hle : ∀ {k l}, IsString m pt srcva k → IsString m pt srcva l → k ≤ l := by
    intro k l hk hl
    by_contra hlt
    obtain ⟨c, hc, hne⟩ := hk.1 l (by omega)
    rw [hl.2] at hc
    exact hne (Option.some.inj hc).symm
  exact Nat.le_antisymm (hle hk hl) (hle hl hk)

theorem Scanned.isString (h : Scanned m pt srcva max 0 bytes seen) :
    ∃ k, k < max ∧ bytes.length = k + 1 ∧ IsString m pt srcva k := by
  obtain ⟨text, htext, hnot⟩ := h.found rfl
  have hlen : bytes.length = text.length + 1 := by rw [htext, List.length_append, List.length_singleton]
  have hlength := h.length
  refine ⟨text.length, by omega, hlen, fun j hj => ⟨text[j], ?_, fun hz => hnot (hz ▸ List.getElem_mem hj)⟩, ?_⟩
  · rw [h.byte (by omega), htext, List.getElem?_append_left hj, List.getElem?_eq_getElem hj]
  · rw [h.byte (by omega), htext, List.getElem?_append_right (Nat.le_refl _), Nat.sub_self]
    rfl

theorem Scanned.not_isString {ret : Int}
    (h : Scanned m pt srcva max ret bytes seen) (hr : ret ≠ 0) (hk : k < max) : ¬ IsString m pt srcva k := by
  intro hs
  obtain ⟨-, hnot, hend⟩ := h.missing hr
  by_cases hlt : k < bytes.length
  · have hbyte := h.byte hlt
    rw [hs.2, List.getElem?_eq_getElem hlt] at hbyte
    exact hnot (Option.some.inj hbyte ▸ List.getElem_mem hlt)
  · obtain hend | hend := hend
    · omega
    · have hnone : m.userByte pt (srcva + bytes.length) = none := by rw [Phys.userByte, hend]; rfl
      by_cases heq : bytes.length = k
      · rw [heq, hs.2] at hnone
        exact absurd hnone (by simp)
      · obtain ⟨c, hc, -⟩ := hs.1 bytes.length (by omega)
        rw [hnone] at hc
        exact absurd hc (by simp)

structure CopiesString (m : Phys) (pt srcva max : Nat) (c : Copied) : Prop where
  ret : c.ret = 0 ∨ c.ret = -1
  iff_string : c.ret = 0 ↔ ∃ k, k < max ∧ IsString m pt srcva k
  string : ∀ k, k < max → IsString m pt srcva k → c.bytes.length = k + 1
  bytes : ∀ j, j < c.bytes.length → m.userByte pt (srcva + j) = c.bytes[j]?
  within : c.bytes.length ≤ max
  reads : (c.seen.flatMap Access.cells).map some =
    (List.range c.bytes.length).map fun j => m.cell pt (srcva + j)
  not_beyond : 0 ∉ c.bytes.dropLast

theorem Scanned.copiesString {c : Copied} (h : Scanned m pt srcva max c.ret c.bytes c.seen) :
    CopiesString m pt srcva max c := by
  obtain ⟨ret, bytes, seen⟩ := c
  dsimp only at h
  obtain rfl | hr := eq_or_ne ret 0
  · obtain ⟨k, hk, hlen, hs⟩ := h.isString
    obtain ⟨text, htext, hnot⟩ := h.found rfl
    refine ⟨.inl rfl, iff_of_true rfl ⟨k, hk, hs⟩, fun l _ hl => ?_, fun j => h.byte, h.length, h.cells, ?_⟩
    · dsimp only
      rw [hlen, hs.unique hl]
    · dsimp only
      rwa [htext, List.dropLast_concat]
  · have hno : ∀ k, k < max → ¬ IsString m pt srcva k := fun k => h.not_isString hr
    refine ⟨.inr (h.missing hr).1, iff_of_false hr fun ⟨k, hk, hs⟩ => hno k hk hs,
      fun k hk hs => absurd hs (hno k hk), fun j => h.byte, h.length, h.cells, fun hc => ?_⟩
    exact (h.missing hr).2.1 ((List.dropLast_sublist bytes).subset hc)

theorem copyinstr_scanned (m : Phys) (pt srcva max : Nat) :
    ∃ c, copyinstr pt srcva max m = .ok c m ∧ Scanned m pt srcva max c.ret c.bytes c.seen := by
  have hscans : Scans m pt srcva max ⟨0, [], []⟩ (copyinstr pt srcva max m) :=
    copyinstrLoop_scans max srcva max _ (Nat.le_refl max)
  obtain ⟨ret, bytes, seen, hrun, hscan⟩ := hscans
  exact ⟨⟨ret, bytes, seen⟩, hrun, hscan⟩

theorem takeWhile_text (h : 0 ∉ text) :
    (text ++ [0]).takeWhile (fun c => decide (c ≠ 0)) = text := by
  have hall : ∀ c ∈ text, decide (c ≠ 0) = true := fun c hc => decide_eq_true fun he => h (he ▸ hc)
  rw [List.takeWhile_append_of_pos hall, List.takeWhile_cons_of_neg (by simp), List.append_nil]

theorem strlen_text (h : 0 ∉ text) (hlen : text.length < 2 ^ 31) :
    strlen (text ++ [0]) = text.length := by
  have hmod : (text.length : Int).bmod (2 ^ 32) = text.length := by
    rw [Int.bmod_def]
    split <;> omega
  unfold strlen
  rw [takeWhile_text h]
  exact hmod

/-- The result of `fetchstr` is the length of the string, as far as an `int` can hold it, or -1. -/
def FetchesLength (m : Phys) (pt srcva max : Nat) (r : Int) : Prop :=
  (∀ k, k < max → k < 2 ^ 31 → IsString m pt srcva k → r = k) ∧
    ((¬ ∃ k, k < max ∧ IsString m pt srcva k) → r = -1)

/-- `copyinstr` succeeds exactly if the user has a string of less than `max` bytes at the address; then it
stores the string and its NUL, and never reads or stores anything else. -/
theorem strings_are_fetched (m : Phys) (pt srcva max : Nat) :
    Ensures (copyinstr pt srcva max) m (fun c m' => m' = m ∧ CopiesString m pt srcva max c) (fun _ _ => False) ∧
    ∀ n : Int32, Ensures (fetchstr pt srcva n.toInt) m
      (fun r m' => m' = m ∧ FetchesLength m pt srcva (addInt 0 n.toInt) r.1) (fun _ _ => False) := by
  refine ⟨?_, fun n => ?_⟩
  · obtain ⟨c, hrun, hscan⟩ := copyinstr_scanned m pt srcva max
    rw [Ensures, hrun]
    exact ⟨rfl, hscan.copiesString⟩
  · obtain ⟨c, hrun, hscan⟩ := copyinstr_scanned m pt srcva (addInt 0 n.toInt)
    refine Ensures.bind_eq hrun ?_
    by_cases hr : c.ret = 0
    · rw [hr] at hscan
      obtain ⟨k, hk, hlen, hs⟩ := hscan.isString
      obtain ⟨text, htext, hnot⟩ := hscan.found rfl
      rw [if_neg (by omega)]
      refine .pure ⟨rfl, fun l _ hl hls => ?_, fun hno => absurd ⟨k, hk, hs⟩ hno⟩
      have hkl : text.length = l := by
        rw [htext, List.length_append, List.length_singleton] at hlen
        have := hs.unique hls
        omega
      rw [htext, strlen_text hnot (by omega), hkl]
    · have hneg := (hscan.missing hr).1
      rw [if_pos (by omega)]
      exact .pure ⟨rfl, fun k hk _ hs => absurd hs (hscan.not_isString hr hk), fun _ => rfl⟩

end Xv6.Vm
