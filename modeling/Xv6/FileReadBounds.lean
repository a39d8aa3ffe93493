import Xv6.FileRead

namespace Xv6.FileRead

open Xv6.Lib Xv6.Blocks
open Xv6.Inodes (bsize ndev)
open Xv6.Vm (maxva)
open Xv6.Console (readRun_length readRun_prefix)

variable {u : User} {a addr i n c size : Nat} {s t : Sys} {src bytes src' : List UInt8}

theorem User.put_nil (u : User) (a : Nat) : u.put a [] = u := by
  rw [User.put, List.zip_nil_right, List.append_nil]

theorem User.put_put (u : User) (a : Nat) (xs ys : List UInt8) :
    (u.put a xs).put (a + xs.length) ys = u.put a (xs ++ ys) := by
  have hzip : (List.range' a (xs ++ ys).length).zip (xs ++ ys) =
      (List.range' a xs.length).zip xs ++ (List.range' (a + xs.length) ys.length).zip ys := by
    rw [List.length_append, ← List.range'_append_1, List.zip_append List.length_range']
  rw [User.put, User.put, User.put, hzip, List.append_assoc]

/-- `copyout` can write to the address. -/
def User.takes (u : User) (a : Nat) : Bool := decide (pgRoundDown a < maxva) && u.page (pgRoundDown a)

theorem User.takes_chunk (u : User) {j m : Nat} (hm : m ≤ pgsize - (a - pgRoundDown a)) (hj : j < m) :
    u.takes (a + j) = u.takes a := by
  have hsame : pgRoundDown (a + j) = pgRoundDown a := by
    have hsz : pgsize = 4096 := rfl
    unfold pgRoundDown at hm ⊢
    rw [hsz] at hm ⊢
    omega
  rw [User.takes, User.takes, hsame]

/-- The first `c` bytes of `src` are copied; the next one, if there is one, cannot be. -/
structure CopiedOut (u : User) (a : Nat) (src : List UInt8) (out : User × Bool) (c : Nat) : Prop where
  le : c ≤ src.length
  user : out.1 = u.put a (src.take c)
  all : out.2 = true ↔ c = src.length
  taken : ∀ j, j < c → u.takes (a + j) = true
  stop : c < src.length → u.takes (a + c) = false

theorem CopiedOut.nothing (u : User) (a : Nat) : CopiedOut u a [] (u, true) 0 :=
  ⟨Nat.le_refl _, (u.put_nil a).symm, iff_of_true rfl rfl, nofun, nofun⟩

theorem copyoutLoop_copies (rounds : Nat) (u : User) (a : Nat) (src : List UInt8) (h : src.length ≤ rounds) :
    ∃ c, CopiedOut u a src (copyoutLoop rounds u a src) c := by
  induction rounds generalizing u a src with
  | zero =>
    obtain rfl := List.length_eq_zero_iff.mp (Nat.le_zero.mp h)
    exact ⟨0, .nothing u a⟩
  | succ rounds ih =>
    rw [copyoutLoop]
    by_cases hnil : src = []
    · subst hnil
      exact ⟨0, .nothing u a⟩
    rw [if_neg hnil]
    dsimp only
    have hpos := List.length_pos_of_ne_nil hnil
    split
    · next hbad =>
      have hno : u.takes a = false := by
        rw [User.takes, Bool.and_eq_false_iff, decide_eq_false_iff_not, Nat.not_lt]
        exact hbad
      exact ⟨0, Nat.zero_le _, (u.put_nil a).symm, iff_of_false Bool.false_ne_true hpos.ne, nofun, fun _ => hno⟩
    · next hgood =>
      rw [not_or, Nat.not_le, Bool.not_eq_false] at hgood
      have hyes : u.takes a = true := by
        rw [User.takes, hgood.2, decide_eq_true hgood.1]
        rfl
      have hpg : 0 < pgsize - (a - pgRoundDown a) := by
        have hsz : pgsize = 4096 := rfl
        unfold pgRoundDown
        rw [hsz]
        omega
      have hdown : pgRoundDown a ≤ a := Nat.div_mul_le_self _ _
      obtain ⟨m, hm⟩ : ∃ m, m = min (pgsize - (a - pgRoundDown a)) src.length := ⟨_, rfl⟩
      rw [← hm]
      have hlen : (src.drop m).length = src.length - m := List.length_drop
      obtain ⟨c, hc, hput, hall, htaken, hstop⟩ :=
        ih (u.put a (src.take m)) (pgRoundDown a + pgsize) (src.drop m) (by omega)
      rw [hlen] at hc hall hstop
      have hfirst : ∀ j, j < m → u.takes (a + j) = true := fun j hj =>
        (u.takes_chunk (by omega) hj).trans hyes
      by_cases hlast : m = src.length
      · obtain rfl : c = 0 := by omega
        refine ⟨m, by omega, ?_, hall.trans (by omega), hfirst, fun hlt => absurd hlast (by omega)⟩
        rw [hput, List.take_zero, User.put_nil]
      · have hnext : pgRoundDown a + pgsize = a + m := by omega
        have hadd : ∀ j, pgRoundDown a + pgsize + j = a + (m + j) := fun j => by omega
        refine ⟨m + c, by omega, ?_, hall.trans (by omega), fun j hj => ?_, fun hlt => ?_⟩
        · have hmin : (src.take m).length = m := List.length_take_of_le (by omega)
          have hjoin := u.put_put a (src.take m) ((src.drop m).take c)
          rw [hmin] at hjoin
          rw [hput, hnext, hjoin, ← List.take_add]
        · by_cases hjm : j < m
          · exact hfirst j hjm
          · have hj' := htaken (j - m) (by omega)
            rwa [hadd, Nat.add_sub_cancel' (Nat.not_lt.mp hjm)] at hj'
        · have hno := hstop (by omega)
          rwa [hadd] at hno

theorem copyout_copies (u : User) (a : Nat) (src : List UInt8) : ∃ c, CopiedOut u a src (copyout u a src) c :=
  copyoutLoop_copies _ u a src (Nat.le_refl _)

theorem CopiedOut.eq {u' : User} {out out' : User × Bool} {c' : Nat}
    (h : CopiedOut u a src out c) (h' : CopiedOut u' a src' out' c') (hpage : u.page = u'.page)
    (hlen : src.length = src'.length) : c = c' := by
  have hsame : ∀ b, u.takes b = u'.takes b := fun b => by rw [User.takes, User.takes, hpage]
  rcases Nat.lt_trichotomy c c' with hlt | heq | hgt
  · have hno := h.stop (by have := h'.le; omega)
    rw [hsame, h'.taken c hlt] at hno
    exact absurd hno.symm Bool.false_ne_true
  · exact heq
  · have hno := h'.stop (by have := h.le; omega)
    rw [← hsame, h.taken c' hgt] at hno
    exact absurd hno.symm Bool.false_ne_true

theorem copyout_page (u : User) (a : Nat) (src : List UInt8) : (copyout u a src).1.page = u.page := by
  obtain ⟨c, hc⟩ := copyout_copies u a src
  rw [hc.user]
  rfl

theorem copyout_copied {u u' : User} (hu : u.page = u'.page) (a : Nat) {src : List UInt8}
    (h : src.length = src'.length) : (copyout u a src).2 = (copyout u' a src').2 := by
  obtain ⟨c, hc⟩ := copyout_copies u a src
  obtain ⟨c', hc'⟩ := copyout_copies u' a src'
  rw [Bool.eq_iff_iff, hc.all, hc'.all, hc.eq hc' hu h, h]

theorem copyout_byte (u : User) (a : Nat) (b : UInt8) :
    copyout u a [b] = (if u.takes a then u.put a [b] else u, u.takes a) := by
  obtain ⟨c, hc⟩ := copyout_copies u a [b]
  have hle := hc.le
  rw [List.length_singleton] at hle
  obtain rfl | rfl : c = 0 ∨ c = 1 := by omega
  · have hno : u.takes a = false := hc.stop Nat.one_pos
    refine Prod.ext ?_ ?_
    · rw [hc.user, hno]
      exact u.put_nil a
    · rw [hno]
      exact Bool.eq_false_iff.mpr fun hall => absurd (hc.all.mp hall) Nat.zero_ne_one
  · have hyes : u.takes a = true := hc.taken 0 Nat.one_pos
    refine Prod.ext ?_ ?_
    · rw [hc.user, hyes]
      rfl
    · rw [hyes]
      exact hc.all.mpr rfl

/-- The user memory has got some bytes from `addr` on, at most `lim`; a count that is returned is theirs. -/
def Transferred (addr lim : Nat) (s : Sys) (r : Int) (t : Sys) : Prop :=
  ∃ bytes : List UInt8, t.user = s.user.put addr bytes ∧ bytes.length ≤ lim ∧ (0 ≤ r → bytes.length = r)

def Transferring (addr lim : Nat) (s t : Sys) : Prop :=
  ∃ bytes : List UInt8, t.user = s.user.put addr bytes ∧ bytes.length ≤ lim

structure Bounded (addr lim : Nat) (s : Sys) (r : Int) (t : Sys) : Prop where
  low : -1 ≤ r
  high : r ≤ lim
  user : Transferred addr lim s r t
  off : t.off = s.off

theorem Bounded.count {bytes : List UInt8} {lim : Nat} (hu : t.user = s.user.put addr bytes)
    (hlen : bytes.length ≤ lim) (hoff : t.off = s.off) : Bounded addr lim s bytes.length t :=
  ⟨by omega, by omega, ⟨bytes, hu, hlen, fun _ => rfl⟩, hoff⟩

theorem Bounded.minus_one {lim : Nat} (hu : t.user = s.user.put addr bytes)
    (hlen : bytes.length ≤ lim) (hoff : t.off = s.off) : Bounded addr lim s (-1) t :=
  ⟨by omega, by omega, ⟨bytes, hu, hlen, nofun⟩, hoff⟩

/-- The block at `off` can be had. -/
def HasBlock (i off : Nat) (v : Vol) : Prop := Completes (bmap i (off / bsize)) v fun b _ => b ≠ 0

/-- One round of the loop of `readi`: it ends without a block, or the bytes of the block are copied as far as
the caller can be written to. -/
theorem readLoopTo_round {Q : Int → Sys → Prop} {E : String → Sys → Prop} (rounds off tot : Nat) (hlt : tot < n)
    (hnone : ∀ v, ¬ HasBlock i off t.vol → (∀ e, E e { t with vol := v }) ∧ Q tot { t with vol := v })
    (hfail : ∀ v src out c, HasBlock i off t.vol → src.length ≤ n - tot → c < src.length →
      CopiedOut t.user (addr + tot) src out c → Q (-1) { t with vol := v, user := out.1 })
    (hnext : ∀ v src out, HasBlock i off t.vol → 0 < src.length → src.length ≤ n - tot →
      CopiedOut t.user (addr + tot) src out src.length →
      Ensures (readLoopTo i addr n rounds (off + src.length) (tot + src.length))
        { t with vol := v, user := out.1 } Q E) :
    Ensures (readLoopTo i addr n (rounds + 1) off tot) t Q E := by
  rw [readLoopTo, if_pos hlt]
  apply Ensures.bind
  apply Ensures.zoom
  refine (Ensures.self _ _).imp (fun b v hb => ?_) fun e v he => (hnone v fun hc => hc.error he).1 e
  dsimp only
  split
  · next hz => exact .pure (hnone v fun hc => hc.ok hb hz).2
  · next hz =>
    apply Ensures.bind_get
    dsimp only
    obtain ⟨m, hm⟩ : ∃ m, m = min (n - tot) (bsize - off % bsize) := ⟨_, rfl⟩
    have hpos : 0 < m := by
      have hmod : off % bsize < bsize := Nat.mod_lt off (by decide)
      omega
    rw [← hm]
    obtain ⟨src, hsrc⟩ : ∃ src, src = (List.range m).map fun j => v.blk b (off % bsize + j) := ⟨_, rfl⟩
    have hsl : src.length = m := by rw [hsrc, List.length_map, List.length_range]
    rw [← hsrc]
    obtain ⟨c, hc⟩ := copyout_copies t.user (addr + tot) src
    have hle := hc.le
    apply Ensures.bind_set
    split
    · next hok =>
      rw [hc.all.mp hok] at hc
      rw [← hsl]
      exact hnext v src _ (.of_ok hb hz) (by omega) (by omega) hc
    · next hno =>
      have hne := mt hc.all.mpr hno
      exact .pure (hfail v src _ c (.of_ok hb hz) (by omega) (by omega) hc)

theorem readLoopTo_bounded (rounds off : Nat) (hu : t.user = s.user.put addr bytes)
    (hoff : t.off = s.off) (hlen : bytes.length ≤ n) :
    Ensures (readLoopTo i addr n rounds off bytes.length) t (Bounded addr n s)
      (fun _ x => Transferring addr n s x) := by
  induction rounds generalizing off bytes t with
  | zero => exact .pure (.count hu hlen hoff)
  | succ rounds ih =>
    by_cases hlt : bytes.length < n
    · have hnew : ∀ {src out c}, CopiedOut t.user (addr + bytes.length) src out c →
          out.1 = s.user.put addr (bytes ++ src.take c) := fun hc => by
        rw [hc.user, hu, User.put_put]
      refine readLoopTo_round rounds off bytes.length hlt (fun v _ => ⟨fun e => ⟨bytes, hu, hlen⟩, ?_⟩)
        (fun v src out c _ hsrc hc hout => ?_) fun v src out _ _ hsrc hout => ?_
      · exact .count (t := { t with vol := v }) hu hlen hoff
      · refine .minus_one (hnew hout) ?_ hoff
        rw [List.length_append, List.length_take]
        omega
      · rw [← List.length_append]
        refine ih _ ?_ hoff ?_
        · rw [hnew hout, List.take_length]
        · rw [List.length_append]
          omega
    · rw [readLoopTo, if_neg hlt]
      exact .pure (.count hu hlen hoff)

theorem User.length_put (u : User) (a : Nat) (bytes : List UInt8) :
    (u.put a bytes).out.length = u.out.length + bytes.length := by
  rw [User.put, List.length_append, List.length_zip, List.length_range', Nat.min_self]

/-- The user memory has got more bytes. -/
def More (s t : Sys) : Prop := s.user.out.length < t.user.out.length

theorem CopiedOut.more {out : User × Bool} (h : CopiedOut u a src out c) :
    out.1.out.length = u.out.length + c := by
  rw [h.user, User.length_put, List.length_take_of_le h.le]

theorem readLoopTo_more (rounds off tot : Nat) (h : More s t) :
    Ensures (readLoopTo i addr n rounds off tot) t (fun _ x => More s x) (fun _ x => More s x) := by
  induction rounds generalizing off tot t with
  | zero => exact .pure h
  | succ rounds ih =>
    by_cases hlt : tot < n
    · refine readLoopTo_round rounds off tot hlt (fun _ _ => ⟨fun _ => h, h⟩) (fun v src out c _ _ _ hout => ?_)
        fun v src out _ _ _ hout => ih _ _ ?_
      · exact h.trans_le (hout.more.symm ▸ Nat.le_add_right _ _)
      · exact h.trans_le (hout.more.symm ▸ Nat.le_add_right _ _)
    · rw [readLoopTo, if_neg hlt]
      exact .pure h

/-- The first byte of a read can be copied: its block can be had, and the caller can be written to. -/
def FirstByte (i addr off : Nat) (t : Sys) : Prop := HasBlock i off t.vol ∧ t.user.takes addr = true

theorem readLoopTo_first (rounds off : Nat) (hn : 0 < n) (h : FirstByte i addr off t) :
    Ensures (readLoopTo i addr n (rounds + 1) off 0) t (fun _ x => More t x) (fun _ x => More t x) := by
  refine readLoopTo_round rounds off 0 hn (fun _ hno => absurd h.1 hno) (fun v src out c _ _ hc hout => ?_)
    fun v src out _ hpos _ hout => readLoopTo_more _ _ _ ?_
  · have hne : c ≠ 0 := by
      rintro rfl
      exact absurd ((hout.stop hc).symm.trans h.2) Bool.false_ne_true
    have hmore := hout.more
    exact show t.user.out.length < out.1.out.length by omega
  · have hmore := hout.more
    exact show t.user.out.length < out.1.out.length by omega

theorem readLoopTo_stops (rounds off : Nat) (h : ¬ FirstByte i addr off t) :
    Ensures (readLoopTo i addr n rounds off 0) t (Bounded addr 0 t) (fun _ x => Transferring addr 0 t x) := by
  have hnil : t.user = t.user.put addr [] := (t.user.put_nil addr).symm
  cases rounds with
  | zero => exact .pure (.count hnil (Nat.le_refl _) rfl)
  | succ rounds =>
    by_cases hn : 0 < n
    · have hno : HasBlock i off t.vol → t.user.takes addr ≠ true := fun hb hc => h ⟨hb, hc⟩
      refine readLoopTo_round rounds off 0 hn (fun v _ => ⟨fun _ => ⟨[], hnil, Nat.le_refl _⟩, ?_⟩)
        (fun v src out c hb _ _ hout => ?_) fun v src out hb hpos _ hout => absurd (hout.taken 0 hpos) (hno hb)
      · exact .count (t := { t with vol := v }) hnil (Nat.le_refl _) rfl
      · obtain rfl : c = 0 := by
          by_contra hc
          exact hno hb (hout.taken 0 (Nat.pos_of_ne_zero hc))
        exact .minus_one hout.user (Nat.le_refl _) rfl
    · rw [readLoopTo, if_neg hn]
      exact .pure (.count hnil (Nat.le_refl _) rfl)

theorem readiTo_eq (s : Sys) (i addr : Nat) (off n : UInt32) :
    readiTo i addr off n s = readLoopTo i addr (readCount (s.vol.ip i).size off.toNat n.toNat)
      (readCount (s.vol.ip i).size off.toNat n.toNat) off.toNat 0 s := by
  show (if (s.vol.ip i).size < off.toNat ∨ off + n < off then _ else _ : R _) s = _
  by_cases hbad : (s.vol.ip i).size < off.toNat ∨ off + n < off
  · rw [if_pos hbad, readCount_bad hbad]
    rfl
  · rw [if_neg hbad, readCount_good hbad]

theorem readiTo_bounded (i addr : Nat) (off n : UInt32) :
    Ensures (readiTo i addr off n) s
      (Bounded addr (readCount (s.vol.ip i).size off.toNat n.toNat) s)
      (fun _ t => Transferring addr (readCount (s.vol.ip i).size off.toNat n.toNat) s t) := by
  rw [Ensures, readiTo_eq]
  have hnil : s.user = s.user.put addr [] := (s.user.put_nil addr).symm
  exact readLoopTo_bounded _ _ hnil rfl (Nat.zero_le _)

def User.fails (u : User) (addr tot m : Nat) : Bool := !(copyout u (addr + tot) (List.replicate m 0)).2

theorem readLoopTo_readLoop (rounds off tot : Nat) (buf : Nat → UInt8) (hu : t.user.page = u.page) :
    Ensures (readLoopTo i addr n rounds off tot) t
      (fun r x => ∃ buf', readLoop i (.user (u.fails addr)) n rounds off tot buf t.vol = .ok (r, buf') x.vol)
      (fun e x => readLoop i (.user (u.fails addr)) n rounds off tot buf t.vol = .error e x.vol) := by
  induction rounds generalizing off tot buf t with
  | zero => exact .pure ⟨buf, rfl⟩
  | succ rounds ih =>
    rw [readLoopTo, readLoop]
    by_cases hlt : tot < n
    · rw [if_pos hlt, if_pos hlt]
      apply Ensures.bind
      apply Ensures.zoom
      refine (Ensures.self _ _).imp (fun b v hb => ?_) fun e v hb => ?_
      · rw [bind_of_ok hb]
        dsimp only
        split
        · exact .pure ⟨buf, rfl⟩
        · apply Ensures.bind_get
          dsimp only
          obtain ⟨m, hm⟩ : ∃ m, m = min (n - tot) (bsize - off % bsize) := ⟨_, rfl⟩
          obtain ⟨src, hsrc⟩ : ∃ src, src = (List.range m).map fun j => v.blk b (off % bsize + j) := ⟨_, rfl⟩
          have hsl : src.length = (List.replicate m (0 : UInt8)).length := by
            rw [hsrc, List.length_map, List.length_range, List.length_replicate]
          have hfail : (Dst.user (u.fails addr)).fails tot m = !(copyout t.user (addr + tot) src).2 :=
            congrArg Bool.not (copyout_copied hu (addr + tot) hsl).symm
          rw [← hm, ← hsrc]
          apply Ensures.bind_set
          have hget : ∀ f : Vol → V (Int × (Nat → UInt8)), (get >>= f) v = f v v := fun _ => rfl
          rw [hget, hfail]
          cases hok : (copyout t.user (addr + tot) src).2 with
          | true =>
            rw [if_pos rfl]
            refine ih (off + m) (tot + m) _ ?_
            exact (copyout_page t.user _ _).trans hu
          | false => exact .pure ⟨buf, rfl⟩
      · exact bind_of_error hb
    · rw [if_neg hlt, if_neg hlt]
      exact .pure ⟨buf, rfl⟩

section Pipe

theorem pipeWait_ensures (wakes : List Wake) (s : Sys) :
    Ensures (pipeWait wakes) s (fun _ t => t.user = s.user ∧ t.off = s.off)
      (fun _ t => t.user = s.user ∧ t.off = s.off) := by
  induction wakes generalizing s with
  | nil =>
    rw [pipeWait]
    apply Ensures.bind_get
    split
    · exact .throw ⟨rfl, rfl⟩
    · exact .pure ⟨rfl, rfl⟩
  | cons wake wakes ih =>
    rw [pipeWait]
    apply Ensures.bind_get
    split
    · split
      · exact .pure ⟨rfl, rfl⟩
      · apply Ensures.bind
        exact .set (ih _)
    · exact .pure ⟨rfl, rfl⟩

theorem pipeCopy_bounded {n : Int} (rounds : Nat) {bytes : List UInt8} (hu : t.user = s.user.put addr bytes)
    (hoff : t.off = s.off) (hlen : bytes.length ≤ n.toNat) :
    Ensures (pipeCopy addr n rounds bytes.length) t (Bounded addr n.toNat s)
      (fun _ x => Transferring addr n.toNat s x) := by
  induction rounds generalizing bytes t with
  | zero => exact .pure (.count hu hlen hoff)
  | succ rounds ih =>
    rw [pipeCopy]
    apply Ensures.bind_get
    split
    · next hlt =>
      split
      · exact .pure (.count hu hlen hoff)
      · obtain ⟨ch, hch⟩ : ∃ ch, ch = t.pipe.data (t.pipe.nread % Xv6.Pipe.pipeSize) := ⟨_, rfl⟩
        rw [← hch]
        dsimp only
        rw [copyout_byte]
        apply Ensures.bind_set
        cases t.user.takes (addr + bytes.length) with
        | true =>
          have hnl : (bytes ++ [ch]).length = bytes.length + 1 := List.length_append
          have hnew : t.user.put (addr + bytes.length) [ch] = s.user.put addr (bytes ++ [ch]) := by
            rw [hu, User.put_put]
          rw [if_pos rfl, ← hnl]
          exact ih hnew hoff (by omega)
        | false => exact .pure (.count hu hlen hoff)
    · exact .pure (.count hu hlen hoff)

theorem piperead_bounded (addr : Nat) (n : Int) (wakes : List Wake) (s : Sys) :
    Ensures (piperead addr n wakes) s (Bounded addr n.toNat s) (fun _ t => Transferring addr n.toNat s t) := by
  unfold piperead
  apply Ensures.bind
  refine (pipeWait_ensures wakes s).imp ?_ ?_
  · rintro killed t ⟨hu, hoff⟩
    rw [← s.user.put_nil addr] at hu
    split
    · exact .pure (.minus_one hu (Nat.zero_le _) hoff)
    · exact pipeCopy_bounded _ hu hoff (Nat.zero_le _)
  · rintro e t ⟨hu, -⟩
    exact ⟨[], by rw [hu, s.user.put_nil], Nat.zero_le _⟩

end Pipe

section Console

theorem consoleTurn_ensures {target : Nat} {got : List UInt8} (hu : t.user = s.user.put addr got)
    (hlen : got.length ≤ target) {E : String → Sys → Prop} :
    Ensures (consoleTurn addr target got) t
      (fun r x => x.user = s.user.put addr r.1 ∧ x.off = t.off ∧ r.1.length ≤ target) E := by
  unfold consoleTurn
  apply Ensures.bind_get
  obtain ⟨copies, hcopies⟩ : ∃ copies, copies = fun k => (copyout t.user (addr + k) [0]).2 := ⟨_, rfl⟩
  rw [← hcopies]
  have hlong := readRun_length target copies (target - got.length) t.cons got
  obtain ⟨more, hmore⟩ := readRun_prefix target copies (target - got.length) t.cons got
  apply Ensures.bind_set
  apply Ensures.pure
  refine ⟨?_, rfl, hlong.trans (by omega)⟩
  dsimp only
  rw [← hmore, List.drop_left, hu, User.put_put]

theorem consoleLoop_bounded {target : Nat} (wakes : List Wake) {got : List UInt8}
    (hu : t.user = s.user.put addr got) (hoff : t.off = s.off) (hlen : got.length ≤ target) :
    Ensures (consoleLoop addr target wakes got) t (Bounded addr target s)
      (fun _ x => Transferring addr target s x) := by
  induction wakes generalizing got t with
  | nil =>
    rw [consoleLoop]
    refine (consoleTurn_ensures hu hlen).seq ?_
    rintro ⟨got', asleep⟩ x ⟨hux, hox, hlx⟩
    dsimp only
    split
    · exact .throw ⟨got', hux, hlx⟩
    · exact .pure (.count hux hlx (hox.trans hoff))
  | cons wake wakes ih =>
    rw [consoleLoop]
    refine (consoleTurn_ensures hu hlen).seq ?_
    rintro ⟨got', asleep⟩ x ⟨hux, hox, hlx⟩
    dsimp only
    split
    · split
      · exact .pure (.minus_one hux hlx (hox.trans hoff))
      · apply Ensures.bind
        exact .modify (ih hux (hox.trans hoff) hlx)
    · exact .pure (.count hux hlx (hox.trans hoff))

theorem consoleread_bounded (addr : Nat) (n : Int) (wakes : List Wake) (s : Sys) :
    Ensures (consoleread addr n wakes) s (Bounded addr n.toNat s) (fun _ t => Transferring addr n.toNat s t) :=
  consoleLoop_bounded wakes (s.user.put_nil addr).symm rfl (Nat.zero_le _)

end Console

theorem readiTo_readi (s : Sys) (i addr : Nat) (off n : UInt32) :
    Ensures (readiTo i addr off n) s
      (fun r t => ∃ buf, readi i (.user (s.user.fails addr)) off n s.vol = .ok (r, buf) t.vol)
      (fun e t => readi i (.user (s.user.fails addr)) off n s.vol = .error e t.vol) := by
  rw [Ensures, readiTo_eq, readi_eq]
  exact readLoopTo_readLoop _ _ _ _ rfl

theorem ilock_ip (v : Vol) (i : Nat) : Returns (ilock i) v fun _ w => w.ip i = v.cur i := by
  unfold ilock
  apply Ensures.bind_get
  dsimp only
  split_ifs with href hvalid hfree
  · exact .throw trivial
  · exact .pure (Vol.cur_active ⟨by omega, hvalid⟩).symm
  · apply Ensures.bind_set
    exact .throw trivial
  · apply Ensures.bind_set
    apply Ensures.pure
    rw [Vol.cur, if_neg fun ha => hvalid ha.2, Vol.ip, Vol.setEntry_itable, if_pos rfl]

/-- The block at the offset of the file can be had, and the caller can be written to at `addr`. -/
def Starts (i addr : Nat) (s : Sys) : Prop :=
  Completes (do ilock i; bmap i (s.off.toNat / bsize)) s.vol (fun b _ => b ≠ 0) ∧ s.user.takes addr = true

instance (i addr : Nat) (s : Sys) : Decidable (Starts i addr s) := inferInstanceAs (Decidable (_ ∧ _))

theorem starts_iff {w : Vol} (h : ilock i s.vol = .ok () w) :
    Starts i addr s ↔ FirstByte i addr s.off.toNat { s with vol := w } := by
  rw [Starts, Completes, Ensures, bind_of_ok h]
  rfl

/-- A negative count for a readable inode is given at an offset that it takes back below zero, at or behind
the end of the file, or where not even one byte can be copied. -/
def Fits (f : Files.File) (addr : Nat) (n : Int32) (s : Sys) : Prop :=
  f.readable = true → f.type = .inode → n.toInt < 0 → Starts f.ip addr s →
    (s.vol.cur f.ip).size ≤ s.off.toNat ∨ -n.toInt ≤ s.off.toNat

instance (f : Files.File) (addr : Nat) (n : Int32) (s : Sys) : Decidable (Fits f addr n s) :=
  inferInstanceAs (Decidable (_ → _ → _ → _ → _))

theorem toUInt32_toNat (n : Int32) :
    (n.toUInt32.toNat : Int) = if n.toInt < 0 then n.toInt + 2 ^ 32 else n.toInt := by
  have hlt : n.toBitVec.toNat < 2 ^ 32 := n.toBitVec.isLt
  have hint : n.toInt = if 2 * n.toBitVec.toNat < 2 ^ 32 then (n.toBitVec.toNat : Int)
      else (n.toBitVec.toNat : Int) - (2 ^ 32 : Nat) := BitVec.toInt_eq_toNat_cond n.toBitVec
  have hnat : n.toUInt32.toNat = n.toBitVec.toNat := rfl
  rw [hnat, hint]
  split_ifs <;> omega

theorem readCount_fits {off : UInt32} {n : Int32}
    (h : n.toInt < 0 → size ≤ off.toNat ∨ -n.toInt ≤ off.toNat) :
    readCount size off.toNat n.toUInt32.toNat ≤ n.toInt.toNat ∧
      (0 < readCount size off.toNat n.toUInt32.toNat →
        off.toNat + readCount size off.toNat n.toUInt32.toNat ≤ size) := by
  have hn := toUInt32_toNat n
  unfold readCount
  split_ifs at hn ⊢ with hneg <;> omega

theorem readCount_pos {off : UInt32} {n : Int32} (hneg : n.toInt < 0) (hsize : off.toNat < size)
    (hoff : off.toNat < -n.toInt) : 0 < readCount size off.toNat n.toUInt32.toNat := by
  have hn := toUInt32_toNat n
  have hlow := n.le_toInt
  unfold readCount
  split_ifs at hn ⊢ <;> omega

def advance (f : Files.File) (r : Int) : Int := if f.type = .inode then max r 0 else 0

structure InCount (f : Files.File) (addr : Nat) (n : Int32) (s : Sys) (r : Int) (t : Sys) : Prop where
  low : -1 ≤ r
  high : r ≤ max n.toInt 0
  user : Transferred addr n.toInt.toNat s r t
  off : (t.off.toNat : Int) = s.off.toNat + advance f r

theorem Bounded.inCount {f : Files.File} {n : Int32} {r : Int} (h : Bounded addr n.toInt.toNat s r t)
    (hf : f.type ≠ .inode) : InCount f addr n s r t := by
  refine ⟨h.low, ?_, h.user, ?_⟩
  · have := h.high
    omega
  · rw [h.off, advance, if_neg hf, Int.add_zero]

theorem readInode_inCount {f : Files.File} {n : Int32} (hf : f.type = .inode) (addr : Nat)
    (hsize : (s.vol.ip f.ip).size < 2 ^ 32) (hfits : n.toInt < 0 → FirstByte f.ip addr s.off.toNat s →
      (s.vol.ip f.ip).size ≤ s.off.toNat ∨ -n.toInt ≤ s.off.toNat) :
    Ensures (do
        let r ← readiTo f.ip addr s.off n.toUInt32
        if 0 < r then
          modify fun s => { s with off := s.off + .ofNat r.toNat }
        return r) s (InCount f addr n s) (fun _ t => Transferring addr n.toInt.toNat s t) := by
  have hread : ∃ count, count ≤ n.toInt.toNat ∧
      (0 < count → s.off.toNat + count ≤ (s.vol.ip f.ip).size) ∧
      Ensures (readiTo f.ip addr s.off n.toUInt32) s (Bounded addr count s)
        (fun _ t => Transferring addr count s t) := by
    by_cases hfirst : FirstByte f.ip addr s.off.toNat s
    · obtain ⟨hle, hend⟩ := readCount_fits (hfits · hfirst)
      exact ⟨_, hle, hend, readiTo_bounded f.ip addr s.off n.toUInt32⟩
    · refine ⟨0, Nat.zero_le _, (absurd · (Nat.lt_irrefl 0)), ?_⟩
      rw [Ensures, readiTo_eq]
      exact readLoopTo_stops _ _ hfirst
  obtain ⟨count, hle, hend, hread⟩ := hread
  apply Ensures.bind
  refine hread.imp (fun r t ht => ?_) fun _ t ht => ?_
  · obtain ⟨bytes, hu, hlen, hret⟩ := ht.user
    have huser : Transferred addr n.toInt.toNat s r t := ⟨bytes, hu, hlen.trans hle, hret⟩
    have hlow := ht.low
    have hhigh := ht.high
    dsimp only
    split
    · next hpos =>
      apply Ensures.bind_modify
      refine .pure ⟨hlow, by omega, huser, ?_⟩
      have hwrap : (s.off + UInt32.ofNat r.toNat).toNat = s.off.toNat + r.toNat := by
        rw [UInt32.toNat_add, UInt32.toNat_ofNat', Nat.mod_eq_of_lt (a := r.toNat) (by omega),
          Nat.mod_eq_of_lt (by omega)]
      dsimp only
      rw [ht.off, hwrap, advance, if_pos hf]
      omega
    · refine .pure ⟨hlow, by omega, huser, ?_⟩
      rw [ht.off, advance, if_pos hf]
      omega
  · obtain ⟨bytes, hu, hlen⟩ := ht
    exact ⟨bytes, hu, hlen.trans hle⟩

theorem fileread_inCount (f : Files.File) (addr : Nat) (n : Int32) (wakes : List Wake)
    (hsize : (s.vol.cur f.ip).size < 2 ^ 32) (hfits : Fits f addr n s) :
    Ensures (fileread f addr n wakes) s (InCount f addr n s)
      (fun _ t => Transferring addr n.toInt.toNat s t) := by
  have hnil : s.user = s.user.put addr [] := (s.user.put_nil addr).symm
  have hfail : InCount f addr n s (-1) s := by
    refine ⟨by omega, by omega, ⟨[], hnil, Nat.zero_le _, nofun⟩, ?_⟩
    unfold advance
    split_ifs <;> omega
  unfold fileread
  split
  · exact .pure hfail
  · next hread =>
    rw [Bool.not_eq_false] at hread
    cases hf : f.type with
    | none => exact .throw ⟨[], hnil, Nat.zero_le _⟩
    | pipe =>
      refine (piperead_bounded addr n.toInt wakes s).post fun r t ht => ht.inCount ?_
      rw [hf]
      nofun
    | device =>
      dsimp only
      split
      · exact .pure hfail
      · refine (consoleread_bounded addr n.toInt wakes s).post fun r t ht => ht.inCount ?_
        rw [hf]
        nofun
    | inode =>
      apply Ensures.bind
      apply Ensures.zoom
      refine (Ensures.self _ _).imp (fun _ w hl => ?_) fun _ _ _ => ⟨[], hnil, Nat.zero_le _⟩
      have hw : w.ip f.ip = s.vol.cur f.ip := (ilock_ip s.vol f.ip).ok hl
      apply Ensures.bind_get
      rw [← hw] at hsize
      refine (readInode_inCount (s := { s with vol := w }) hf addr hsize fun hneg hfirst => ?_).imp ?_ ?_
      · rw [hw]
        exact hfits hread hf hneg ((starts_iff hl).mpr hfirst)
      · exact fun r t ht => ⟨ht.low, ht.high, ht.user, ht.off⟩
      · exact fun _ t ht => ht

theorem fileread_more (f : Files.File) (addr : Nat) (n : Int32) (wakes : List Wake) (hread : f.readable = true)
    (hf : f.type = .inode) (hneg : n.toInt < 0) (hstarts : Starts f.ip addr s)
    (hsize : s.off.toNat < (s.vol.cur f.ip).size) (hoff : s.off.toNat < -n.toInt) :
    Ensures (fileread f addr n wakes) s (fun _ t => More s t) (fun _ t => More s t) := by
  unfold fileread
  rw [if_neg (by rw [hread]; exact Bool.noConfusion), hf]
  cases hl : ilock f.ip s.vol with
  | error e w =>
    have hlock := hstarts.1
    rw [Completes, Ensures, bind_of_error hl] at hlock
    exact hlock.elim
  | ok _ w =>
    apply Ensures.bind
    apply Ensures.zoom
    refine .of_ok hl ?_
    apply Ensures.bind_get
    have hw : w.ip f.ip = s.vol.cur f.ip := (ilock_ip s.vol f.ip).ok hl
    have hpos := readCount_pos hneg hsize hoff
    rw [← hw] at hpos
    have hmore : Ensures (readiTo f.ip addr s.off n.toUInt32) { s with vol := w } (fun _ t => More s t)
        (fun _ t => More s t) := by
      rw [Ensures, readiTo_eq]
      obtain ⟨rounds, hrounds⟩ := Nat.exists_eq_add_of_lt hpos
      have hfirst := readLoopTo_first rounds s.off.toNat hpos ((starts_iff hl).mp hstarts)
      rw [Nat.zero_add] at hrounds
      rw [← hrounds] at hfirst
      exact hfirst
    refine hmore.seq fun r t ht => ?_
    dsimp only
    split
    · apply Ensures.bind_modify
      exact .pure ht
    · exact .pure ht

/-- A read returns between -1 and the count asked for and never transfers more, unless a negative count is
taken for a large one. -/
theorem reads_stay_within (f : Files.File) (addr : Nat) (n : Int32) (wakes : List Wake)
    (hsize : (s.vol.cur f.ip).size < 2 ^ 32) :
    Ensures (fileread f addr n wakes) s (InCount f addr n s)
      (fun _ t => Transferring addr n.toInt.toNat s t) ↔ Fits f addr n s := by
  refine ⟨fun h hread hf hneg hstarts => ?_, fileread_inCount f addr n wakes hsize⟩
  by_contra hfar
  rw [not_or, Nat.not_le, Int.not_le] at hfar
  have hnone : ∀ t, More s t → ¬ Transferring addr n.toInt.toNat s t := by
    rintro t hmore ⟨bytes, hu, hlen⟩
    rw [More, hu, User.length_put] at hmore
    omega
  refine ((h.and (fileread_more f addr n wakes hread hf hneg hstarts hfar.1 hfar.2)).imp ?_ ?_).false
  · rintro r t ⟨⟨-, -, ⟨bytes, hu, hlen, -⟩, -⟩, hmore⟩
    exact hnone t hmore ⟨bytes, hu, hlen⟩
  · rintro e t ⟨ht, hmore⟩
    exact hnone t hmore ht

/-- A file of 16 bytes is read from offset 0; the caller can be written to. -/
def readSys : Sys where
  vol := rootVol 1
  user := ⟨fun _ => true, []⟩
  pipe := ⟨fun _ => 0, 0, 0, true, true⟩
  cons := ⟨fun _ => 0, 0, 0, 0⟩
  off := 0

def rootFile : Files.File := ⟨.inode, 1, true, false, 0, 1, 0⟩

/-- Ten bytes are asked for. -/
theorem reads_stay_within_ten : Ensures (fileread rootFile 4096 10 []) readSys
    (fun r t => r = 10 ∧ InCount rootFile 4096 10 readSys r t) (fun _ _ => False) := by
  have hten : Ensures (fileread rootFile 4096 10 []) readSys (fun r _ => r = 10) (fun _ _ => False) := by
    decide +kernel
  have hsize : (readSys.vol.cur rootFile.ip).size < 2 ^ 32 := by decide
  have hfits : Fits rootFile 4096 10 readSys := by decide +kernel
  exact (hten.and ((reads_stay_within rootFile 4096 10 [] hsize).mpr hfits)).imp (fun _ _ hr => hr)
    fun _ _ he => he.1

/-- The count -1 is taken for 4294967295, and the whole file is read. -/
theorem negative_read_transfers : ∃ (f : Files.File) (s : Sys), (s.vol.cur f.ip).size < 2 ^ 32 ∧
    Ensures (fileread f 4096 (-1) []) s
      (fun r t => r = 16 ∧ t.user.out.map Prod.fst = List.range' 4096 16) (fun _ _ => False) :=
  ⟨rootFile, readSys, by decide, by decide +kernel⟩

end Xv6.FileRead
