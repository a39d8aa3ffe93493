import Mathlib.Data.Nat.Digits.Defs
import Xv6.Lib.Runs
import Xv6.Ulib

namespace Xv6.Sixfive

open Xv6.Lib.Runs Xv6.Ulib

def numberTokens : List UInt8 := [48, 49, 50, 51, 52, 53, 54, 55, 56, 57]

def separatorTokens : List UInt8 := [32, 45, 13, 9, 10, 46, 47, 44]

def strContains (s : List UInt8) (token : UInt8) : Bool := (strchr s token).isSome

def isNumber (token : UInt8) : Bool := strContains numberTokens token

def isSeparator (token : UInt8) : Bool := strContains separatorTokens token

/-- The numbers that `process_number` prints. -/
def processNumber (number : Int) : List Int :=
  if number.tmod 5 = 0 ∨ number.tmod 6 = 0 then [number] else []

/-- The variables of `process_file`, and what it has printed. -/
structure Scan where
  prevIsNumber : Bool
  prevIsSeparator : Bool
  number : Int
  printed : List Int

def start : Scan := ⟨false, true, 0, []⟩

/-- A round of the loop of `process_file`; `beyond` is the memory behind the variable `token`. -/
def step (beyond : List UInt8) (s : Scan) (token : UInt8) : Scan :=
  if s.prevIsNumber then
    if isNumber token then
      { s with number := int32 (s.number * 10 + atoi (token :: beyond)) }
    else if isSeparator token then
      { s with
        printed := s.printed ++ processNumber s.number, number := 0, prevIsSeparator := true, prevIsNumber := false }
    else
      { s with number := 0, prevIsSeparator := false, prevIsNumber := false }
  else if s.prevIsSeparator then
    if isNumber token then
      { s with number := atoi (token :: beyond), prevIsSeparator := false, prevIsNumber := true }
    else if isSeparator token then s
    else { s with prevIsSeparator := false, prevIsNumber := false }
  else
    if isNumber token then s
    else if isSeparator token then { s with prevIsSeparator := true, prevIsNumber := false }
    else s

/-- `process_file` on a file with the given bytes; `last` is what `read` returns after them. -/
def processFile (beyond file : List UInt8) (last : Int) : Int × List Int :=
  let s := file.foldl (step beyond) start
  if last < 0 then (-1, s.printed)
  else if s.prevIsNumber then (0, s.printed ++ processNumber s.number)
  else (0, s.printed)

/-- The number that a string of digits stands for. -/
def decimal (digits : List UInt8) : Nat := Nat.ofDigits 10 (digits.reverse.map fun c => c.toNat - 48)

def value (digits : List UInt8) : Int := int32 (decimal digits)

section Tokens

variable {c : UInt8} {beyond : List UInt8}

theorem strContains_iff {s : List UInt8} (h0 : 0 ∉ s) : strContains s c = true ↔ c ∈ s := by
  by_cases hc : c ∈ s
  · obtain ⟨l, r, rfl, hl⟩ := List.eq_append_cons_of_mem hc
    have hl0 : 0 ∉ l := fun h => h0 (List.mem_append_left _ h)
    have hc0 : c ≠ 0 := fun h => h0 (h ▸ hc)
    rw [strContains, strchr_of_mem hl0 hl hc0]
    exact iff_of_true rfl hc
  · rw [strContains, strchr_none_of_notMem hc]
    exact iff_of_false (by simp) hc

theorem isNumber_iff : isNumber c = true ↔ c ∈ numberTokens := strContains_iff (by decide)

theorem not_separator_of_number (c : UInt8) (h : isNumber c = true) : isSeparator c = false := by
  have hc : c ∉ separatorTokens := by
    have hall : ∀ c ∈ numberTokens, c ∉ separatorTokens := by decide +kernel
    exact hall c (isNumber_iff.mp h)
  have hiff : isSeparator c = true ↔ c ∈ separatorTokens := strContains_iff (by decide)
  exact Bool.eq_false_iff.mpr fun hs => hc (hiff.mp hs)

theorem digit_of_number (h : isNumber c = true) : isDigit c = true ∧ 48 ≤ c.toNat ∧ c.toNat ≤ 57 := by
  have hall : ∀ c ∈ numberTokens, isDigit c = true ∧ 48 ≤ c.toNat ∧ c.toNat ≤ 57 := by decide +kernel
  exact hall c (isNumber_iff.mp h)

theorem atoi_token (h : isNumber c = true) (hbeyond : isDigit (deref beyond) = false) :
    atoi (c :: beyond) = (c.toNat - 48 : Nat) := by
  obtain ⟨hd, hlo, hhi⟩ := digit_of_number h
  have hstop : ∀ n, atoiLoop beyond n = n := by
    intro n
    cases beyond with
    | nil => rfl
    | cons b s =>
      have hb : isDigit b = false := hbeyond
      rw [atoiLoop, hb]
      rfl
  have hcast : (0 * 10 + (c.toNat : Int) - 48) = (c.toNat - 48 : Nat) := by omega
  rw [atoi, atoiLoop, if_pos hd, hstop, hcast, int32_of_small (by omega)]

theorem decimal_append (ds : List UInt8) (c : UInt8) : decimal (ds ++ [c]) = (c.toNat - 48) + 10 * decimal ds := by
  rw [decimal, List.reverse_append, List.map_append, List.reverse_singleton, List.map_singleton,
    List.singleton_append, Nat.ofDigits_cons]
  rfl

theorem value_digit (h : isNumber c = true) : value [c] = (c.toNat - 48 : Nat) := by
  obtain ⟨-, hlo, hhi⟩ := digit_of_number h
  rw [value, decimal, List.reverse_singleton, List.map_singleton, Nat.ofDigits_singleton, int32_of_small (by omega)]

theorem value_append (ds : List UInt8) (c : UInt8) :
    value (ds ++ [c]) = int32 (value ds * 10 + (c.toNat - 48 : Nat)) := by
  rw [value, value, int32_horner, decimal_append, Nat.cast_add, Nat.cast_mul, Nat.cast_ofNat]

end Tokens

section Scanner

variable {beyond t : List UInt8} {s : Scan} {l : List (Nat × Nat)} {c : UInt8}

def slice (t : List UInt8) (r : Nat × Nat) : List UInt8 := (t.drop r.1).take (r.2 - r.1)

def prints (t : List UInt8) (l : List (Nat × Nat)) : List Int := l.flatMap fun r => processNumber (value (slice t r))

theorem slice_append {r : Nat × Nat} (h : r.1 ≤ r.2 ∧ r.2 ≤ t.length) : slice (t ++ [c]) r = slice t r := by
  rw [slice, slice, List.drop_append_of_le_length (h.1.trans h.2), List.take_append_of_le_length]
  rw [List.length_drop]
  omega

abbrev Numeral (t : List UInt8) (i j : Nat) : Prop := Word isNumber isSeparator t i j

abbrev Ended (t : List UInt8) (i j : Nat) : Prop := Closed isNumber isSeparator t i j

structure Scanned (t : List UInt8) (s : Scan) (l : List (Nat × Nat)) : Prop where
  ended : Enumerates (Ended t) l
  printed : s.printed = prints t l
  word : s.prevIsNumber = true → ∃ i, Numeral t i t.length ∧ s.number = value (t.drop i)
  none : s.prevIsNumber = false → ∀ i, ¬ Numeral t i t.length
  boundary : s.prevIsNumber = false → (s.prevIsSeparator = true ↔ Boundary isSeparator t)

theorem Scanned.start : Scanned [] start [] where
  ended := ⟨.nil, fun _ j => iff_of_false List.not_mem_nil fun h => absurd h.2.lt (Nat.not_lt_zero j)⟩
  printed := rfl
  word := nofun
  none _ i h := Nat.not_lt_zero i h.lt
  boundary _ := iff_of_true rfl boundary_nil

theorem Scanned.prints_append (h : Scanned t s l) (c : UInt8) : prints (t ++ [c]) l = s.printed := by
  rw [h.printed, prints, prints, List.flatMap_def, List.flatMap_def]
  refine congrArg List.flatten (List.map_congr_left ?_)
  rintro ⟨i, j⟩ hr
  obtain ⟨hw, hs⟩ := (h.ended.mem i j).mp hr
  rw [slice_append ⟨hw.lt.le, hs.lt.le⟩]

theorem Scanned.keep (h : Scanned t s l) (hc : isSeparator c = true → ∀ i, ¬ Numeral t i t.length) :
    Enumerates (Ended (t ++ [c])) l := by
  refine h.ended.congr fun i j => closed_append.trans (or_iff_left ?_)
  rintro ⟨hs, -, hw⟩
  exact hc hs i hw

theorem Scanned.finish (h : Scanned t s l) {i : Nat} (hw : Numeral t i t.length) (hc : isSeparator c = true) :
    Enumerates (Ended (t ++ [c])) (l ++ [(i, t.length)]) := by
  refine h.ended.append i t.length (fun a b hab => hab.2.lt) fun a b => closed_append.trans (or_congr_right ?_)
  constructor
  · rintro ⟨-, hb, ha⟩
    exact ⟨hb, ha.unique not_separator_of_number hw⟩
  · rintro ⟨hb, rfl⟩
    exact ⟨hc, hb, hw⟩

theorem numeral_append : (∃ i, Numeral (t ++ [c]) i (t ++ [c]).length) ↔
    isNumber c = true ∧ ((∃ i, Numeral t i t.length) ∨ Boundary isSeparator t) := by
  rw [List.length_append, List.length_singleton]
  constructor
  · rintro ⟨i, h⟩
    obtain ⟨hc, hw | ⟨-, hb⟩⟩ := word_last.mp h
    · exact ⟨hc, .inl ⟨i, hw⟩⟩
    · exact ⟨hc, .inr hb⟩
  · rintro ⟨hc, ⟨i, hw⟩ | hb⟩
    · exact ⟨i, word_last.mpr ⟨hc, .inl hw⟩⟩
    · exact ⟨t.length, word_last.mpr ⟨hc, .inr ⟨rfl, hb⟩⟩⟩

theorem Scanned.step (h : Scanned t s l) (hbeyond : isDigit (deref beyond) = false) (c : UInt8) :
    ∃ l', Scanned (t ++ [c]) (step beyond s c) l' := by
  unfold Sixfive.step
  cases hnum : s.prevIsNumber with
  | true =>
    obtain ⟨i, hw, hvalue⟩ := h.word hnum
    have hi : i ≤ t.length := hw.lt.le
    rw [if_pos rfl]
    split
    · next hc =>
      have hsep := not_separator_of_number c hc
      refine ⟨l, h.keep (fun hs => absurd hs (by simp [hsep])), (h.prints_append c).symm, fun _ => ⟨i, ?_, ?_⟩,
        nofun, nofun⟩
      · rw [List.length_append, List.length_singleton]
        exact word_last.mpr ⟨hc, .inl hw⟩
      · dsimp only
        rw [hvalue, atoi_token hc hbeyond, List.drop_append_of_le_length hi, value_append]
    · next hc =>
      have hnone : ∀ i, ¬ Numeral (t ++ [c]) i (t ++ [c]).length := fun i hw' => hc (numeral_append.mp ⟨i, hw'⟩).1
      split
      · next hs =>
        refine ⟨l ++ [(i, t.length)], h.finish hw hs, ?_, nofun, fun _ => hnone, fun _ =>
          iff_of_true rfl (boundary_append.mpr hs)⟩
        have hslice : slice (t ++ [c]) (i, t.length) = t.drop i := by
          rw [slice_append ⟨hi, Nat.le_refl _⟩, slice, ← List.length_drop, List.take_length]
        rw [prints, List.flatMap_append, List.flatMap_singleton, hslice, ← hvalue]
        exact congrArg (· ++ processNumber s.number) (h.prints_append c).symm
      · next hs =>
        exact ⟨l, h.keep fun hs' => absurd hs' hs, (h.prints_append c).symm, nofun, fun _ => hnone, fun _ =>
          iff_of_false nofun fun hb => hs (boundary_append.mp hb)⟩
  | false =>
    have hnone := h.none hnum
    have hb := h.boundary hnum
    rw [if_neg Bool.false_ne_true]
    have hkeep : Enumerates (Ended (t ++ [c])) l := h.keep fun _ => hnone
    have hprinted := (h.prints_append c).symm
    have hword : s.prevIsNumber = true → ∃ i, Numeral (t ++ [c]) i (t ++ [c]).length ∧
        s.number = value ((t ++ [c]).drop i) := fun htrue => absurd (hnum.symm.trans htrue) nofun
    cases hsep : s.prevIsSeparator with
    | true =>
      rw [if_pos rfl]
      split
      · next hc =>
        refine ⟨l, hkeep, hprinted, fun _ => ⟨t.length, ?_, ?_⟩, nofun, nofun⟩
        · rw [List.length_append, List.length_singleton]
          exact word_last.mpr ⟨hc, .inr ⟨rfl, hb.mp hsep⟩⟩
        · dsimp only
          rw [atoi_token hc hbeyond, List.drop_left]
          exact (value_digit hc).symm
      · next hc =>
        have hnone' : ∀ i, ¬ Numeral (t ++ [c]) i (t ++ [c]).length := fun i hw' => hc (numeral_append.mp ⟨i, hw'⟩).1
        split
        · next hs =>
          exact ⟨l, hkeep, hprinted, hword, fun _ => hnone', fun _ => iff_of_true hsep (boundary_append.mpr hs)⟩
        · next hs =>
          exact ⟨l, hkeep, hprinted, nofun, fun _ => hnone', fun _ =>
            iff_of_false nofun fun hb => hs (boundary_append.mp hb)⟩
    | false =>
      rw [if_neg Bool.false_ne_true]
      have hsep' : ¬ s.prevIsSeparator = true := fun htrue => absurd (hsep.symm.trans htrue) nofun
      have hnb : ¬ Boundary isSeparator t := fun hc => hsep' (hb.mpr hc)
      have hnone' : ∀ i, ¬ Numeral (t ++ [c]) i (t ++ [c]).length := by
        intro i hw
        obtain ⟨-, ⟨j, hj⟩ | hbound⟩ := numeral_append.mp ⟨i, hw⟩
        · exact hnone j hj
        · exact hnb hbound
      split
      · next hc =>
        have hs := not_separator_of_number c hc
        exact ⟨l, hkeep, hprinted, hword, fun _ => hnone', fun _ =>
          iff_of_false hsep' fun hb => absurd (hs.symm.trans (boundary_append.mp hb)) nofun⟩
      · split
        · next hs =>
          exact ⟨l, hkeep, hprinted, nofun, fun _ => hnone', fun _ => iff_of_true rfl (boundary_append.mpr hs)⟩
        · next hs =>
          exact ⟨l, hkeep, hprinted, hword, fun _ => hnone', fun _ =>
            iff_of_false hsep' fun hb => hs (boundary_append.mp hb)⟩

theorem scan_scanned (hbeyond : isDigit (deref beyond) = false) (file : List UInt8) :
    ∃ l, Scanned file (file.foldl (Sixfive.step beyond) Sixfive.start) l := by
  induction file using List.reverseRecOn with
  | nil => exact ⟨[], .start⟩
  | append_singleton t c ih =>
    obtain ⟨l, h⟩ := ih
    rw [List.foldl_append]
    exact h.step hbeyond c

theorem Scanned.runs (h : Scanned t s l) : ∃ l', Enumerates (Run isNumber isSeparator t) l' ∧
    prints t l' = if s.prevIsNumber then s.printed ++ processNumber s.number else s.printed := by
  cases hnum : s.prevIsNumber with
  | true =>
    obtain ⟨i, hw, hvalue⟩ := h.word hnum
    refine ⟨l ++ [(i, t.length)], ?_, ?_⟩
    · refine h.ended.append i t.length (fun a b hab => hab.2.lt) fun a b => run_iff.trans (or_congr_right ?_)
      constructor
      · rintro ⟨hb, ha⟩
        exact ⟨hb, ha.unique not_separator_of_number hw⟩
      · rintro ⟨hb, rfl⟩
        exact ⟨hb, hw⟩
    · have hslice : slice t (i, t.length) = t.drop i := by
        rw [slice, ← List.length_drop, List.take_length]
      rw [prints, List.flatMap_append, List.flatMap_singleton, hslice, ← hvalue, if_pos rfl, h.printed]
      rfl
  | false =>
    refine ⟨l, h.ended.congr fun i j => run_iff.trans (or_iff_left ?_), ?_⟩
    · rintro ⟨-, hw⟩
      exact h.none hnum i hw
    · rw [if_neg Bool.false_ne_true, h.printed]

theorem prints_eq_filter (t : List UInt8) (l : List (Nat × Nat)) :
    prints t l = (l.map fun r => value (slice t r)).filter fun v => 5 ∣ v ∨ 6 ∣ v := by
  induction l with
  | nil => rfl
  | cons r l ih =>
    have hdiv : ∀ v : Int, (v.tmod 5 = 0 ∨ v.tmod 6 = 0) ↔ (5 ∣ v ∨ 6 ∣ v) := fun v =>
      or_congr Int.dvd_iff_tmod_eq_zero.symm Int.dvd_iff_tmod_eq_zero.symm
    rw [prints, List.flatMap_cons, List.map_cons, processNumber]
    by_cases h : 5 ∣ value (slice t r) ∨ 6 ∣ value (slice t r)
    · rw [if_pos ((hdiv _).mpr h), List.filter_cons_of_pos (by simpa using h), ← ih]
      rfl
    · rw [if_neg fun hc => h ((hdiv _).mp hc), List.filter_cons_of_neg (by simpa using h), ← ih]
      rfl

/-- `process_file` prints the values of the runs of digits between separators or the ends of the file that are
multiples of 5 or 6, in order. -/
theorem sixfive_prints_delimited_runs (hbeyond : isDigit (deref beyond) = false) (file : List UInt8) :
    ∃ l, Enumerates (Run isNumber isSeparator file) l ∧ processFile beyond file 0 =
      (0, (l.map fun r => value (slice file r)).filter fun v => 5 ∣ v ∨ 6 ∣ v) := by
  obtain ⟨l, h⟩ := scan_scanned hbeyond file
  obtain ⟨l', henum, hprints⟩ := h.runs
  refine ⟨l', henum, ?_⟩
  rw [← prints_eq_filter, hprints]
  dsimp only [processFile]
  rw [if_neg (by decide)]
  split <;> rfl

end Scanner

/-- "7,30" -/
theorem sixfive_prints_delimited_runs_small :
    ∃ l, Enumerates (Run isNumber isSeparator [55, 44, 51, 48]) l ∧ processFile [0] [55, 44, 51, 48] 0 =
      (0, (l.map fun r => value (slice [55, 44, 51, 48] r)).filter fun v => 5 ∣ v ∨ 6 ∣ v) :=
  sixfive_prints_delimited_runs (by decide) [55, 44, 51, 48]

example : processFile [0] [55, 44, 51, 48] 0 = (0, [30]) := by decide

end Xv6.Sixfive
