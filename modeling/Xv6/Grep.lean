import Xv6.Lib.Lines
import Xv6.Match
import Xv6.Memmove

namespace Xv6.Grep

open Xv6.Lib Xv6.Memmove Xv6.Ulib Function

def newline : UInt8 := 10

def bufSize : Nat := 1024

/-- The memory from `p` to the end of `buf`. -/
def from_ (buf : Nat → UInt8) (p : Nat) : List UInt8 := cells buf p (bufSize - p)

/-- The loop of `grep` over the lines in `buf`: what it writes, and `buf` and `p` in the end. -/
def lineLoop (pattern : List UInt8) (buf : Nat → UInt8) (p : Nat) : List (List UInt8) × (Nat → UInt8) × Nat :=
  match _h : strchr (from_ buf p) newline with
  | none => ([], buf, p)
  | some d =>
    let q := p + d
    let buf := update buf q 0
    if matchRe pattern (from_ buf p) then
      let buf := update buf q newline
      let r := lineLoop pattern buf (q + 1)
      (cells buf p (q + 1 - p) :: r.1, r.2)
    else
      lineLoop pattern buf (q + 1)
termination_by bufSize - p
decreasing_by all_goals
  have hlt := strchr_lt _h
  rw [from_, cells_length] at hlt
  omega

/-- What `read` returns for at most `count` bytes when it would rather return `want` and `avail` are left. -/
def readLen (want count avail : Nat) : Nat := min (max 1 want) (min count avail)

/-- The body of the loop of `grep`, when `read` has returned the given bytes: what it writes, and `buf` and `m`
in the end. -/
def round (pattern : List UInt8) (buf : Nat → UInt8) (m : Nat) (bytes : List UInt8) :
    List (List UInt8) × (Nat → UInt8) × Nat :=
  let m' := m + bytes.length
  let r := lineLoop pattern (update (store buf m bytes) m' 0) 0
  if 0 < m' then (r.1, userMemmove 0 r.2.2 (BitVec.ofNat 32 (m' - r.2.2)) r.2.1, m' - r.2.2) else (r.1, r.2.1, m')

/-- The loop of `grep`; the `i`-th `read` would rather return `chunk i` bytes. -/
def grepLoop (pattern : List UInt8) (chunk : Nat → Nat) (buf : Nat → UInt8) (m i : Nat) (input : List UInt8) :
    List (List UInt8) :=
  let n := readLen (chunk i) (bufSize - m - 1) input.length
  if _h : 0 < n then
    let r := round pattern buf m (input.take n)
    r.1 ++ grepLoop pattern chunk r.2.1 r.2.2 (i + 1) (input.drop n)
  else []
termination_by input.length
decreasing_by
  rw [List.length_drop]
  exact Nat.sub_lt (_h.trans_le ((Nat.min_le_right _ _).trans (Nat.min_le_right _ _))) _h

def grep (pattern : List UInt8) (chunk : Nat → Nat) (buf : Nat → UInt8) (input : List UInt8) : List (List UInt8) :=
  grepLoop pattern chunk buf 0 0 input

section Lines

variable {pattern l : List UInt8} {buf : Nat → UInt8} {M m p : Nat}

def printed (pattern : List UInt8) (ls : List (List UInt8)) : List (List UInt8) :=
  (ls.filter (matchRe pattern)).map (· ++ [newline])

theorem printed_append (ls ls' : List (List UInt8)) :
    printed pattern (ls ++ ls') = printed pattern ls ++ printed pattern ls' := by
  rw [printed, List.filter_append, List.map_append]
  rfl

theorem lineLoop_line (pattern : List UInt8) {q : Nat} (hp : p ≤ q) (hq : q < bufSize)
    (hl : cells buf p (q - p) = l) (hb : buf q = newline) (h0 : 0 ∉ l) (hn : newline ∉ l) : ∃ b,
    lineLoop pattern buf p =
      (printed pattern [l] ++ (lineLoop pattern (update buf q b) (q + 1)).1,
        (lineLoop pattern (update buf q b) (q + 1)).2) := by
  have hlen : l.length = q - p := by rw [← hl, cells_length]
  have hfrom : from_ buf p = l ++ newline :: cells buf (q + 1) (bufSize - (q + 1)) := by
    rw [from_, cells_cut hp hq, hl, hb]
  have hterm : from_ (update buf q 0) p = l ++ 0 :: cells buf (q + 1) (bufSize - (q + 1)) := by
    rw [from_, cells_cut hp hq, update_self, cells_update_of_notMem (by omega),
      cells_update_of_notMem (by omega), hl]
  have hfound : strchr (from_ buf p) newline = some (q - p) := by
    rw [hfrom, strchr_of_mem h0 hn (by decide), hlen]
  have hpq : p + (q - p) = q := by omega
  rw [lineLoop]
  split
  · next h => exact absurd (h.symm.trans hfound) (by simp)
  · next d h =>
    obtain rfl : d = q - p := Option.some.inj (h.symm.trans hfound)
    dsimp only
    rw [hpq, hterm, matchRe_append h0]
    by_cases hm : matchRe pattern l = true
    · refine ⟨newline, ?_⟩
      have hwrite : cells (update buf q newline) p (q + 1 - p) = l ++ [newline] := by
        rw [cells_cut hp (Nat.lt_succ_self q), update_self, cells_update_of_notMem (by omega), hl,
          Nat.sub_self]
        rfl
      rw [if_pos hm, update_idem, hwrite, printed, List.filter_cons_of_pos hm]
      rfl
    · refine ⟨0, ?_⟩
      rw [if_neg hm, printed, List.filter_cons_of_neg hm]
      rfl

theorem lineLoop_eq (pattern : List UInt8) (hM : M < bufSize) (hend : buf M = 0) (hp : p ≤ M) {s : List UInt8}
    (hs : cells buf p (M - p) = s) (h0 : 0 ∉ s) : ∃ buf' p',
      lineLoop pattern buf p = (printed pattern (lines newline s).1, buf', p') ∧ p' ≤ M ∧
        cells buf' p' (M - p') = (lines newline s).2 := by
  induction s using @line_induction UInt8 newline generalizing buf p with
  | rest s hn =>
    refine ⟨buf, p, ?_, hp, by rw [lines_of_notMem hn, hs]⟩
    have hnone : strchr (from_ buf p) newline = none := by
      rw [from_, cells_cut hp hM, hs, hend, strchr_of_notMem h0 hn]
    rw [lineLoop, lines_of_notMem hn]
    split
    · rfl
    · next h => exact absurd (h.symm.trans hnone) (by simp)
  | line l s hn ih =>
    have hlen := congrArg List.length hs
    rw [cells_length, List.length_append, List.length_cons] at hlen
    obtain ⟨q, hq⟩ : ∃ q, q = p + l.length := ⟨_, rfl⟩
    have hcut : cells buf p (M - p) = _ := cells_cut (by omega : p ≤ q) (by omega : q < M)
    rw [hs] at hcut
    obtain ⟨hl, hrest⟩ := List.append_inj hcut (by rw [cells_length]; omega)
    obtain ⟨hb, hs'⟩ := List.cons.inj hrest
    obtain ⟨b, hround⟩ := lineLoop_line pattern (by omega) (by omega) hl.symm hb.symm
      (fun h => h0 (List.mem_append_left _ h)) hn
    have hend' : update buf q b M = 0 := by rw [update_of_ne (by omega), hend]
    have hcells' : cells (update buf q b) (q + 1) (M - (q + 1)) = s := by
      rw [cells_update_of_notMem (by omega), ← hs']
    obtain ⟨buf', p', hloop, hp', hcells⟩ := ih hend' (by omega) hcells' fun h =>
      h0 (List.mem_append_right l (List.mem_cons_of_mem newline h))
    refine ⟨buf', p', ?_, hp', ?_⟩
    · rw [hround, hloop, lines_append_cons hn, ← printed_append, List.singleton_append]
    · rw [hcells, lines_append_cons hn]

theorem round_eq (pattern : List UInt8) {pend bytes : List UInt8} (hpend : cells buf 0 m = pend)
    (hbytes : 0 < bytes.length) (hroom : m + bytes.length < bufSize) (h0 : 0 ∉ pend ++ bytes) : ∃ buf' k,
      round pattern buf m bytes = (printed pattern (lines newline (pend ++ bytes)).1, buf', k) ∧
        cells buf' 0 k = (lines newline (pend ++ bytes)).2 := by
  obtain ⟨start, hstart⟩ : ∃ start, start = update (store buf m bytes) (m + bytes.length) 0 := ⟨_, rfl⟩
  have hcells : cells start 0 (m + bytes.length - 0) = pend ++ bytes := by
    rw [hstart, Nat.sub_zero, cells_update_of_notMem (by omega), cells_add, cells_store_below _ (by omega), hpend,
      Nat.zero_add, cells_store]
  have hend : start (m + bytes.length) = 0 := by rw [hstart, update_self]
  obtain ⟨buf', p', hloop, hp', hrest⟩ := lineLoop_eq pattern hroom hend (Nat.zero_le _) hcells h0
  have hsize : bufSize = 1024 := rfl
  have hlen : (BitVec.ofNat 32 (m + bytes.length - p')).toNat = m + bytes.length - p' :=
    Nat.mod_eq_of_lt (by omega)
  refine ⟨userMemmove 0 p' (BitVec.ofNat 32 (m + bytes.length - p')) buf', m + bytes.length - p', ?_, ?_⟩
  · dsimp only [round]
    rw [← hstart, hloop, if_pos (by omega)]
  · rw [userMemmove_eq_moved (by omega), hlen, cells_moved, hrest]

end Lines

section Grep

variable {pattern input : List UInt8} {chunk : Nat → Nat} {buf : Nat → UInt8} {m i : Nat}

/-- The lines before the first one that does not fit in `buf` with its newline. -/
def fitting (s : List UInt8) : List (List UInt8) := (lines newline s).1.takeWhile fun l => l.length + 1 < bufSize

theorem fitting_append {s t : List UInt8} (hs : s.length < bufSize) :
    fitting (s ++ t) = (lines newline s).1 ++ fitting ((lines newline s).2 ++ t) := by
  rw [fitting, lines_append, List.takeWhile_append_of_pos]
  · rfl
  · intro l hl
    have hlt := length_line_lt hl
    exact decide_eq_true (by omega)

theorem fitting_full {s t : List UInt8} (hs : newline ∉ s) (hlen : bufSize ≤ s.length + 1) :
    fitting (s ++ t) = [] := by
  rw [fitting]
  cases hl : (lines newline (s ++ t)).1 with
  | nil => rfl
  | cons l ls =>
    have hle := length_le_head_line hs (l := l) (by rw [hl]; rfl)
    exact List.takeWhile_cons_of_neg (by simp; omega)

theorem grepLoop_eq {pend : List UInt8} (hpend : cells buf 0 m = pend) (hm : m < bufSize) (hn : newline ∉ pend)
    (h0 : 0 ∉ pend ++ input) : grepLoop pattern chunk buf m i input = printed pattern (fitting (pend ++ input)) := by
  have hlenp : pend.length = m := by rw [← hpend, cells_length]
  induction hk : input.length using Nat.strong_induction_on generalizing buf m i pend input with
  | _ k ih =>
    subst hk
    obtain ⟨n, hread⟩ : ∃ n, n = readLen (chunk i) (bufSize - m - 1) input.length := ⟨_, rfl⟩
    rw [grepLoop]
    dsimp only
    rw [← hread]
    unfold readLen at hread
    split
    · next hpos =>
      have htake : (input.take n).length = n := List.length_take_of_le (by omega)
      have hsplit : pend ++ input = (pend ++ input.take n) ++ input.drop n := by
        rw [List.append_assoc, List.take_append_drop]
      have h0' : 0 ∉ (pend ++ input.take n) ++ input.drop n := hsplit ▸ h0
      obtain ⟨buf', k', hround, hrest⟩ := round_eq pattern hpend (by omega) (by omega)
        fun h => h0' (List.mem_append_left _ h)
      have hk' : k' = (lines newline (pend ++ input.take n)).2.length := by rw [← hrest, cells_length]
      have hlen : (pend ++ input.take n).length < bufSize := by
        rw [List.length_append, htake]
        omega
      rw [hround, ih _ ?_ hrest ?_ (notMem_lines_rest _) ?_ hk'.symm rfl, hsplit, fitting_append hlen, printed_append]
      · rw [List.length_drop]
        omega
      · have hle := @length_lines_rest _ _ newline (pend ++ input.take n)
        omega
      · intro h
        refine h0' (List.mem_append.mpr ((List.mem_append.mp h).imp ?_ id))
        exact mem_of_mem_lines_rest
    · next hzero =>
      by_cases hempty : input = []
      · rw [hempty, List.append_nil, fitting, lines_of_notMem hn]
        rfl
      · have hin := List.length_pos_iff.mpr hempty
        rw [fitting_full hn (by omega)]
        rfl

/-- However `read` cuts the input, `grep` writes exactly the lines that match if and only if no line matches from
the first one on that does not fit in its buffer with its newline. -/
theorem grep_prints_matching_lines (h0 : 0 ∉ input) :
    grep pattern chunk buf input = ((lines newline input).1.filter (matchRe pattern)).map (· ++ [newline]) ↔
      ∀ l ∈ (lines newline input).1.dropWhile (·.length + 1 < bufSize), matchRe pattern l = false := by
  have hgrep : grep pattern chunk buf input = printed pattern (fitting input) :=
    grepLoop_eq rfl (by decide) List.not_mem_nil h0
  have hlines : (lines newline input).1 =
      fitting input ++ (lines newline input).1.dropWhile (·.length + 1 < bufSize) :=
    List.takeWhile_append_dropWhile.symm
  conv_lhs => rw [hgrep, hlines, ← printed, printed_append, List.self_eq_append_right]
  simp only [printed, List.map_eq_nil_iff, List.filter_eq_nil_iff, Bool.not_eq_true]

/-- However `read` cuts the input, `grep` writes the lines that match up to the first one that does not fit. -/
theorem grep_prints_until_long_line (h0 : 0 ∉ input) : grep pattern chunk buf input =
    (((lines newline input).1.takeWhile (·.length + 1 < bufSize)).filter (matchRe pattern)).map (· ++ [newline]) :=
  grepLoop_eq rfl (by decide) List.not_mem_nil h0

theorem grep_prints_matching_lines_short :
    grep [] (fun _ => 1) (fun _ => 0) [97, 10, 98] = [[97, 10]] := by
  rw [(grep_prints_matching_lines (by decide)).mpr (by decide)]
  simp [lines, newline, matchRe_nil]

theorem grep_prints_until_long_line_two :
    grep [] (fun _ => 2) (fun _ => 7) [97, 10, 98, 10] = [[97, 10], [98, 10]] := by
  rw [grep_prints_until_long_line (by decide)]
  simp [lines, newline, matchRe_nil, bufSize]

/-- A line that fills the buffer is not printed, though the empty pattern matches it. -/
theorem long_line_is_lost :
    grep [] (fun _ => 512) (fun _ => 0) (List.replicate 1023 97 ++ [newline]) = [] ∧
      (lines newline (List.replicate 1023 97 ++ [newline])).1.filter (matchRe []) = [List.replicate 1023 97] := by
  obtain ⟨l, hl⟩ : ∃ l, l = List.replicate 1023 (97 : UInt8) := ⟨_, rfl⟩
  have hmem : ∀ {c}, c ∈ l → c = 97 := fun h => List.eq_of_mem_replicate (hl ▸ h)
  have hline : newline ∉ l := fun h => absurd (hmem h) (by decide)
  have hzero : 0 ∉ l ++ [newline] := by
    intro h
    obtain h | h := List.mem_append.mp h
    · exact absurd (hmem h) (by decide)
    · exact absurd (List.mem_singleton.mp h) (by decide)
  have hlong : bufSize ≤ l.length + 1 := by
    rw [hl, List.length_replicate]
    decide
  rw [← hl]
  constructor
  · have hgrep : grep [] (fun _ => 512) (fun _ => 0) (l ++ [newline]) = printed [] (fitting (l ++ [newline])) :=
      grepLoop_eq rfl (by decide) List.not_mem_nil hzero
    rw [hgrep, fitting_full hline hlong]
    rfl
  · rw [lines_append_cons hline, List.filter_cons_of_pos (matchRe_nil _)]
    rfl

end Grep

end Xv6.Grep
