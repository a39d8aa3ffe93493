import Mathlib.Data.Nat.Digits.Lemmas
import Mathlib.Tactic.NormNum
import Xv6.Ulib

namespace Xv6.Printf

def digit (a : UInt8) (d : Nat) : UInt8 := if d < 10 then 48 + UInt8.ofNat d else a + UInt8.ofNat (d - 10)

def lower : Nat → UInt8 := digit 97

def upper : Nat → UInt8 := digit 65

def minus : UInt8 := 45

def bufSize : Nat := 20

/-- The loop that fills `buf` with the digits of `x`, when there is room for so many of them; there is no
result when it writes past the end. -/
def fill (digits : Nat → UInt8) (base : Nat) : Nat → Nat → List UInt8 → Option (List UInt8)
  | 0, _, _ => none
  | room + 1, x, buf =>
    if x / base ≠ 0 then fill digits base room (x / base) (buf ++ [digits (x % base)])
    else some (buf ++ [digits (x % base)])

/-- The digits of `x` and the sign, from the end of `buf`. -/
def emit (digits : Nat → UInt8) (base x : Nat) (neg : Bool) : Option (List UInt8) := do
  let buf ← fill digits base bufSize x []
  if neg then
    if buf.length < bufSize then some (buf ++ [minus]).reverse else none
  else
    some buf.reverse

def printint (xx : BitVec 64) (base : Nat) (sign : Bool) : Option (List UInt8) :=
  let sign := sign && xx.toInt < 0
  emit lower base (if sign then -xx else xx).toNat sign

/-- `printint` of the user library, where `x` has 32 bits. -/
def userPrintint (xx : BitVec 64) (base : Nat) (sgn : Bool) : Option (List UInt8) :=
  let neg := sgn && xx.toInt < 0
  emit upper base ((if neg then -xx else xx).setWidth 32).toNat neg

section Numeral

variable {base x : Nat} {digits : Nat → UInt8}

/-- The digits of a number, the last one first; those of 0 are one digit. -/
def numeral (base x : Nat) : List Nat := if x = 0 then [0] else Nat.digits base x

theorem numeral_ne_nil : numeral base x ≠ [] := by
  unfold numeral
  split
  · exact List.cons_ne_nil _ _
  · next h => exact Nat.digits_ne_nil_iff_ne_zero.mpr h

theorem ofDigits_numeral : Nat.ofDigits base (numeral base x) = x := by
  unfold numeral
  split
  · next h => rw [h, Nat.ofDigits_singleton]
  · exact Nat.ofDigits_digits base x

theorem numeral_lt (hb : 1 < base) : ∀ d ∈ numeral base x, d < base := by
  unfold numeral
  split
  · intro d hd
    rw [List.mem_singleton.mp hd]
    omega
  · exact fun d hd => Nat.digits_lt_base hb hd

theorem numeral_getLast (hx : x ≠ 0) : (numeral base x).getLast numeral_ne_nil ≠ 0 := by
  have h : numeral base x = Nat.digits base x := if_neg hx
  rw [List.getLast_congr _ (Nat.digits_ne_nil_iff_ne_zero.mpr hx) h]
  exact Nat.getLast_digit_ne_zero base hx

theorem numeral_length {k : Nat} (hb : 1 < base) (hk : 0 < k) (hx : x < base ^ k) : (numeral base x).length ≤ k := by
  unfold numeral
  split
  · exact hk
  · exact (Nat.digits_length_le_iff hb x).mpr hx

theorem numeral_step (hb : 1 < base) (hx : x / base ≠ 0) : numeral base x = x % base :: numeral base (x / base) := by
  have hpos : x ≠ 0 := by
    rintro rfl
    exact hx (Nat.zero_div base)
  rw [numeral, numeral, if_neg hpos, if_neg hx, Nat.digits_def' hb (Nat.pos_of_ne_zero hpos)]

theorem numeral_last (hb : 1 < base) (hx : x / base = 0) : numeral base x = [x % base] := by
  unfold numeral
  split
  · next h => rw [h, Nat.zero_mod]
  · next h => rw [Nat.digits_def' hb (Nat.pos_of_ne_zero h), hx, Nat.digits_zero]

theorem fill_eq (hb : 1 < base) {room : Nat} (buf : List UInt8) (h : (numeral base x).length ≤ room) :
    fill digits base room x buf = some (buf ++ (numeral base x).map digits) := by
  induction room generalizing x buf with
  | zero => exact absurd (List.length_eq_zero_iff.mp (Nat.le_zero.mp h)) numeral_ne_nil
  | succ room ih =>
    rw [fill]
    split
    · next hx =>
      rw [numeral_step hb hx, List.length_cons] at h
      rw [ih _ (Nat.le_of_succ_le_succ h), numeral_step hb hx, List.map_cons, List.append_assoc,
        List.singleton_append]
    · next hx => rw [numeral_last hb (not_not.mp hx), List.map_singleton]

/-- The text of a number with a sign, if there is one. -/
def text (digits : Nat → UInt8) (base x : Nat) (neg : Bool) : List UInt8 :=
  (if neg then [minus] else []) ++ (numeral base x).reverse.map digits

theorem emit_eq (hb : 1 < base) (neg : Bool) (h : (numeral base x).length + neg.toNat ≤ bufSize) :
    emit digits base x neg = some (text digits base x neg) := by
  have hfill : fill digits base bufSize x [] = _ := fill_eq hb [] ((Nat.le_add_right _ _).trans h)
  rw [emit, hfill, List.nil_append, Option.bind_eq_bind, Option.bind_some, text, List.map_reverse]
  cases neg with
  | false => rfl
  | true =>
    have hroom : ((numeral base x).map digits).length < bufSize := by
      rw [List.length_map]
      exact h
    rw [if_pos rfl, if_pos hroom, List.reverse_append]
    rfl

theorem numeral_fits (hb : 10 ≤ base) (neg : Bool) (hx : x < 2 ^ 64) (hneg : neg = true → x ≤ 2 ^ 63) :
    (numeral base x).length + neg.toNat ≤ bufSize := by
  have hpow : ∀ k, 10 ^ k ≤ base ^ k := fun k => Nat.pow_le_pow_left hb k
  cases neg with
  | false => exact numeral_length (by omega) (by decide) (hx.trans (lt_of_lt_of_le (by norm_num) (hpow 20)))
  | true =>
    have hlt : x < base ^ 19 := (hneg rfl).trans_lt (lt_of_lt_of_le (by norm_num) (hpow 19))
    exact Nat.succ_le_succ (numeral_length (by omega) (by decide) hlt)

end Numeral

section Kernel

variable {xx : BitVec 64} {base : Nat}

theorem toNat_neg_of_neg (h : xx.toInt < 0) : (-xx).toNat = xx.toInt.natAbs ∧ (-xx).toNat ≤ 2 ^ 63 := by
  have hlt := xx.isLt
  rw [BitVec.toInt_eq_toNat_cond] at h ⊢
  rw [BitVec.toNat_neg]
  split at h
  · omega
  · next hc =>
    rw [if_neg hc, Nat.mod_eq_of_lt (by omega)]
    omega

def value (xx : BitVec 64) (sign : Bool) : Int := if sign then xx.toInt else xx.toNat

theorem printint_eq (hb : 10 ≤ base) (sign : Bool) :
    printint xx base sign = some (text lower base (value xx sign).natAbs (value xx sign < 0)) := by
  have hpos : ∀ {sign}, (sign && decide (xx.toInt < 0)) = false → value xx sign = xx.toNat := by
    intro sign hneg
    cases sign with
    | false => rfl
    | true =>
      have hge := of_decide_eq_false hneg
      rw [value, if_pos rfl, BitVec.toInt_eq_toNat_cond] at *
      split at hge
      · next hlt => rw [if_pos hlt]
      · have hlt := xx.isLt
        omega
  dsimp only [printint]
  cases hneg : sign && decide (xx.toInt < 0) with
  | false =>
    rw [hpos hneg]
    exact emit_eq (by omega) false (numeral_fits hb false xx.isLt nofun)
  | true =>
    obtain ⟨rfl, hlt⟩ := (Bool.and_eq_true _ _).mp hneg
    have hlt := of_decide_eq_true hlt
    obtain ⟨habs, hle⟩ := toNat_neg_of_neg hlt
    have hvalue : value xx true = xx.toInt := rfl
    rw [hvalue, ← habs, decide_eq_true hlt]
    exact emit_eq (by omega) true (numeral_fits hb true (-xx).isLt fun _ => hle)

/-- A numeral: a sign for the numbers below 0, then digits whose value is the absolute value, and no 0 in
front of another digit. -/
structure Canonical (digits : Nat → UInt8) (base : Nat) (v : Int) (out : List UInt8) (ds : List Nat) : Prop where
  out : out = (if v < 0 then [minus] else []) ++ ds.map digits
  digit : ∀ d ∈ ds, d < base
  value : Nat.ofDigits base ds.reverse = v.natAbs
  nonempty : ds ≠ []
  leading : ds.head? = some 0 → ds = [0]

theorem text_canonical {digits : Nat → UInt8} (hb : 10 ≤ base) (v : Int) :
    Canonical digits base v (text digits base v.natAbs (v < 0)) (numeral base v.natAbs).reverse where
  out := by simp only [text, decide_eq_true_eq]
  digit d hd := numeral_lt (by omega) d (List.mem_reverse.mp hd)
  value := by rw [List.reverse_reverse, ofDigits_numeral]
  nonempty hc := numeral_ne_nil (List.reverse_eq_nil_iff.mp hc)
  leading h := by
    by_cases hv : v.natAbs = 0
    · rw [hv]
      rfl
    · rw [List.head?_reverse, List.getLast?_eq_getLast_of_ne_nil numeral_ne_nil] at h
      exact absurd (Option.some.inj h) (numeral_getLast hv)

/-- `printint` of the kernel prints the numeral of every 64-bit number, within its buffer. -/
theorem printint_prints_numeral (xx : BitVec 64) (sign : Bool) (hb : base = 10 ∨ base = 16) :
    ∃ out ds, printint xx base sign = some out ∧ Canonical lower base (value xx sign) out ds := by
  have hten : 10 ≤ base := by omega
  exact ⟨_, _, printint_eq hten sign, text_canonical hten _⟩

end Kernel

theorem printint_prints_numeral_least :
    ∃ out ds, printint (BitVec.intMin 64) 10 true = some out ∧ Canonical lower 10 (-2 ^ 63) out ds :=
  printint_prints_numeral (BitVec.intMin 64) true (.inl rfl)

section Atoi

open Xv6.Ulib

variable {a : UInt8}

theorem digit_reads {d : Nat} (hd : d < 10) : isDigit (digit a d) = true ∧ (digit a d).toNat = 48 + d := by
  rw [digit, if_pos hd]
  revert d
  decide

theorem atoiLoop_digits {ds : List Nat} (h : ∀ d ∈ ds, d < 10) (v : Nat) :
    atoiLoop (ds.map (digit a)) (int32 v) = int32 (ds.foldl (fun v d => d + 10 * v) v : Nat) := by
  induction ds generalizing v with
  | nil => rfl
  | cons d ds ih =>
    obtain ⟨hdigit, hnat⟩ := @digit_reads a d (h d List.mem_cons_self)
    have hstep : int32 (int32 v * 10 + (digit a d).toNat - 48) = int32 (d + 10 * v : Nat) := by
      rw [hnat, show int32 v * 10 + (48 + d : Nat) - 48 = int32 v * 10 + d by omega, int32_horner]
      rfl
    rw [List.map_cons, atoiLoop, if_pos hdigit, hstep, ih fun d hd => h d (List.mem_cons_of_mem _ hd),
      List.foldl_cons]

theorem atoi_emit {x : Nat} {neg : Bool} (h : (numeral 10 x).length + neg.toNat ≤ bufSize) :
    ∃ out, emit (digit a) 10 x neg = some out ∧ atoi out = if neg then 0 else int32 x := by
  refine ⟨_, emit_eq (by decide) neg h, ?_⟩
  cases neg with
  | true =>
    rw [if_pos rfl, atoi, text, if_pos rfl, List.singleton_append, atoiLoop]
    exact if_neg (show ¬ isDigit minus = true by decide)
  | false =>
    have hloop := @atoiLoop_digits a (numeral 10 x).reverse
      (fun d hd => numeral_lt (by decide) d (List.mem_reverse.mp hd)) 0
    have hfoldr : (numeral 10 x).foldr (fun d v => d + 10 * v) 0 = x :=
      (Nat.ofDigits_eq_foldr 10 _).symm.trans ofDigits_numeral
    rw [List.foldl_reverse, hfoldr, int32_of_small (by decide)] at hloop
    rw [if_neg Bool.false_ne_true, ← hloop]
    rfl

/-- `atoi` reads what either `printint` prints, modulo 2³²; it does not know the sign. -/
theorem atoi_printint (xx : BitVec 64) (sign : Bool) :
    (∃ out, printint xx 10 sign = some out ∧
      atoi out = if sign ∧ xx.toInt < 0 then 0 else int32 xx.toNat) ∧
    ∃ out, userPrintint xx 10 sign = some out ∧
      atoi out = if sign ∧ xx.toInt < 0 then 0 else int32 xx.toNat := by
  have hfits : ∀ neg : Bool, ∀ x : BitVec 64, (neg = true → x.toNat ≤ 2 ^ 63) →
      (numeral 10 x.toNat).length + neg.toNat ≤ bufSize := fun neg x => numeral_fits (Nat.le_refl _) neg x.isLt
  have huser : ∀ neg : Bool, ∀ x : BitVec 64, (numeral 10 (x.setWidth 32).toNat).length + neg.toNat ≤ bufSize :=
    fun neg x => numeral_fits (Nat.le_refl _) neg (by omega) fun _ => by omega
  dsimp only [printint, userPrintint]
  cases hneg : sign && decide (xx.toInt < 0) with
  | false =>
    have hc : ¬ (sign = true ∧ xx.toInt < 0) := by simpa using hneg
    have hmod : int32 (xx.setWidth 32).toNat = int32 xx.toNat := by
      rw [BitVec.toNat_setWidth, Int.natCast_emod]
      exact Int.emod_bmod _ 4294967296
    have hkernel := @atoi_emit 97 _ _ (hfits false xx nofun)
    have huser := @atoi_emit 65 _ _ (huser false xx)
    rw [if_neg Bool.false_ne_true] at hkernel huser
    rw [hmod] at huser
    rw [if_neg hc]
    exact ⟨hkernel, huser⟩
  | true =>
    have hc : sign = true ∧ xx.toInt < 0 := by simpa using hneg
    rw [if_pos hc]
    exact ⟨atoi_emit (hfits true (-xx) fun _ => (toNat_neg_of_neg hc.2).2), atoi_emit (huser true (-xx))⟩

end Atoi

end Xv6.Printf
