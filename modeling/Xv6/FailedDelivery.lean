import Xv6.FileReadBounds

namespace Xv6.FileRead

open Xv6.Lib Function
open Xv6.Pipe (pipeSize)
open Xv6.Console

variable {addr target : Nat} {s t : Sys} {got l rest : List UInt8} {b : UInt8}

section Ring

variable {N r w k : Nat}

/-- The next `k` bytes of a ring of `N` slots that is read from counter `r` on. -/
def ringNext (N : Nat) (ring : Nat → UInt8) (r k : Nat) : List UInt8 :=
  (List.range k).map fun j => ring ((r + j) % 2 ^ 32 % N)

/-- The bytes of a ring between its counters `r` and `w`. -/
def ringBytes (N : Nat) (ring : Nat → UInt8) (r w : Nat) : List UInt8 :=
  ringNext N ring r ((w + 2 ^ 32 - r) % 2 ^ 32)

theorem ringNext_length (N : Nat) (ring : Nat → UInt8) (r k : Nat) : (ringNext N ring r k).length = k := by
  rw [ringNext, List.length_map, List.length_range]

theorem ringNext_succ (ring : Nat → UInt8) (k : Nat) (hr : r < 2 ^ 32) :
    ringNext N ring r (k + 1) = ring (r % N) :: ringNext N ring ((r + 1) % 2 ^ 32) k := by
  rw [ringNext, List.range_succ_eq_map, List.map_cons, List.map_map, Nat.add_zero, Nat.mod_eq_of_lt hr]
  congr 1
  apply List.map_congr_left
  intro j _
  rw [comp_apply, Nat.mod_add_mod, Nat.succ_eq_add_one, Nat.add_assoc, Nat.add_comm 1]

theorem ringBytes_cons (ring : Nat → UInt8) (hr : r < 2 ^ 32) (hw : w < 2 ^ 32) (hne : r ≠ w) :
    ringBytes N ring r w = ring (r % N) :: ringBytes N ring ((r + 1) % 2 ^ 32) w := by
  obtain ⟨m, hm⟩ : ∃ m, (w + 2 ^ 32 - r) % 2 ^ 32 = m + 1 := ⟨(w + 2 ^ 32 - r) % 2 ^ 32 - 1, by omega⟩
  have hnext : (w + 2 ^ 32 - (r + 1) % 2 ^ 32) % 2 ^ 32 = m := by omega
  rw [ringBytes, ringBytes, hm, hnext, ringNext_succ ring m hr]

theorem ringBytes_self (N : Nat) (ring : Nat → UInt8) (r : Nat) : ringBytes N ring r r = [] := by
  rw [ringBytes, Nat.add_sub_cancel_left, Nat.mod_self]
  rfl

theorem ringBytes_ne {ring : Nat → UInt8} (h : ringBytes N ring r w = b :: l) : r ≠ w := by
  rintro rfl
  rw [ringBytes_self] at h
  exact List.cons_ne_nil _ _ h.symm

/-- When the read counter has moved over `l`, these are the bytes that have left the ring. -/
theorem ringBytes_moved {ring : Nat → UInt8} (hr : r < 2 ^ 32) (h : ringBytes N ring r w = l ++ rest) :
    ringBytes N ring r ((r + l.length) % 2 ^ 32) = l := by
  have hlen := congrArg List.length h
  rw [ringBytes, ringNext_length, List.length_append] at hlen
  have hmoved : ((r + l.length) % 2 ^ 32 + 2 ^ 32 - r) % 2 ^ 32 = l.length := by omega
  have htake := congrArg (List.take l.length) h
  rw [List.take_left, ringBytes, ringNext, ← List.map_take, List.take_range, Nat.min_eq_left (by omega)] at htake
  rw [ringBytes, hmoved]
  exact htake

end Ring

/-- A read of `n` bytes to `addr` copies the bytes `l`, and the copy of the next one fails. -/
structure Faults (u : User) (addr : Nat) (n : Int) (l : List UInt8) : Prop where
  asked : l.length < n
  copied : ∀ j, j < l.length → u.takes (addr + j) = true
  fails : u.takes (addr + l.length) = false

theorem Faults.put {u : User} {n : Int} (h : Faults u addr n l) (a : Nat) (bytes : List UInt8) :
    Faults (u.put a bytes) addr n l := ⟨h.asked, h.copied, h.fails⟩

theorem Faults.tail {u : User} {n : Int} {l' : List UInt8} (h : Faults u addr n (l ++ l')) :
    Faults u (addr + l.length) (n - l.length) l' := by
  have hasked := h.asked
  have hfails := h.fails
  rw [List.length_append] at hasked hfails
  refine ⟨by omega, fun j hj => ?_, ?_⟩
  · rw [Nat.add_assoc]
    refine h.copied _ ?_
    rw [List.length_append]
    omega
  · rwa [Nat.add_assoc]

section Pipe

def pipeBytes (d : Pipe.Data) : List UInt8 := ringBytes pipeSize d.data d.nread d.nwrite

/-- What has been taken out of the pipe `d` when it has become `d'`. -/
def pipeTaken (d d' : Pipe.Data) : List UInt8 := ringBytes pipeSize d.data d.nread d'.nread

/-- The pipe that `piperead` copies from, if the call is not killed before and does not sleep for good. -/
def pipeFound : List Wake → Pipe.Data → Option Pipe.Data
  | [], d => if d.nread = d.nwrite ∧ d.writeopen = true then none else some d
  | wake :: wakes, d =>
    if d.nread = d.nwrite ∧ d.writeopen = true then
      if wake.killed then none else pipeFound wakes wake.pipe
    else some d

theorem pipeWait_found (wakes : List Wake) {d : Pipe.Data} (h : pipeFound wakes s.pipe = some d) :
    Completes (pipeWait wakes) s fun killed t => killed = false ∧ t.user = s.user ∧ t.pipe = d := by
  induction wakes generalizing s with
  | nil =>
    rw [pipeFound] at h
    rw [pipeWait]
    apply Ensures.bind_get
    split_ifs at h ⊢
    exact .pure ⟨rfl, rfl, Option.some.inj h⟩
  | cons wake wakes ih =>
    rw [pipeFound] at h
    rw [pipeWait]
    apply Ensures.bind_get
    split_ifs at h ⊢
    · apply Ensures.bind_set
      exact ih h
    · exact .pure ⟨rfl, rfl, Option.some.inj h⟩

/-- One round of the loop of `piperead`: the byte leaves the pipe whether or not it is copied. -/
theorem pipeCopy_round {n : Int} {i : Nat} (rounds : Nat) (hlt : i < n) (hne : s.pipe.nread ≠ s.pipe.nwrite) :
    pipeCopy addr n (rounds + 1) i s =
      let pipe := { s.pipe with nread := (s.pipe.nread + 1) % 2 ^ 32 }
      if s.user.takes (addr + i) = true then
        pipeCopy addr n rounds (i + 1)
          { s with pipe := pipe, user := s.user.put (addr + i) [s.pipe.data (s.pipe.nread % pipeSize)] }
      else .ok i { s with pipe := pipe } := by
  rw [pipeCopy]
  show (if (i : Int) < n then _ else _ : R Int) s = _
  rw [if_pos hlt, if_neg hne]
  dsimp only
  rw [copyout_byte]
  cases s.user.takes (addr + i) with
  | true => rfl
  | false => rfl

theorem pipeCopy_faults {n : Int} {i rounds : Nat} (hr : s.pipe.nread < 2 ^ 32) (hw : s.pipe.nwrite < 2 ^ 32)
    (hrounds : l.length < rounds) (h : Faults s.user (addr + i) (n - i) l)
    (hbytes : pipeBytes s.pipe = l ++ b :: rest) :
    Completes (pipeCopy addr n rounds i) s fun r t => r = i + l.length ∧
      t.user = s.user.put (addr + i) l ∧ t.pipe.nread = (s.pipe.nread + (l ++ [b]).length) % 2 ^ 32 := by
  induction l generalizing s i rounds with
  | nil =>
    obtain ⟨rounds, rfl⟩ := Nat.exists_eq_add_one.mpr hrounds
    have hno : s.user.takes (addr + i) ≠ true := Bool.eq_false_iff.mp h.fails
    have hlt := h.asked
    rw [Completes, Ensures, pipeCopy_round rounds (by simpa using hlt) (ringBytes_ne hbytes), if_neg hno]
    exact ⟨(Int.add_zero _).symm, (s.user.put_nil _).symm, rfl⟩
  | cons c l ih =>
    obtain ⟨rounds, rfl⟩ : ∃ m, rounds = m + 1 := ⟨rounds - 1, by omega⟩
    have hne := ringBytes_ne hbytes
    obtain ⟨hc, htail⟩ := List.cons.inj (hbytes.symm.trans (ringBytes_cons _ hr hw hne))
    have hyes : s.user.takes (addr + i) = true := h.copied 0 (Nat.succ_pos _)
    have hlen : (c :: l).length = l.length + 1 := rfl
    have hasked := h.asked
    have hrest : Faults s.user (addr + (i + 1)) (n - (i + 1 : Nat)) l := by
      have hdrop := Faults.tail (l := [c]) h
      rw [List.length_singleton, Nat.add_assoc, Int.sub_sub] at hdrop
      exact hdrop
    have hmod : (s.pipe.nread + 1) % 2 ^ 32 < 2 ^ 32 := Nat.mod_lt _ (by decide)
    rw [Completes, Ensures, pipeCopy_round rounds (by omega) hne, if_pos hyes, ← hc]
    refine Ensures.imp (ih (s := { s with pipe := _, user := _ }) hmod hw (by omega) (hrest.put _ _) htail.symm)
      ?_ fun _ _ h => h
    rintro r t ⟨hret, huser, hread⟩
    refine ⟨by omega, ?_, ?_⟩
    · rw [huser]
      exact s.user.put_put (addr + i) [c] l
    · rw [hread, List.cons_append, List.length_cons, Nat.mod_add_mod, Nat.add_assoc, Nat.add_comm 1]

end Pipe

section Console

variable {copies : Nat → Bool} {c : Cons}

def consBytes (c : Cons) : List UInt8 := ringBytes inputBufSize c.buf c.r c.w

/-- The characters that a call finds in the console, over all the times that it wakes up. -/
def consoleInput : List Wake → Cons → List UInt8
  | [], c => consBytes c
  | wake :: wakes, c => consBytes c ++ if wake.killed then [] else consoleInput wakes wake.cons

def InLine (c : UInt8) : Prop := c ≠ ctrlD ∧ c ≠ newline

theorem readRun_passes (target n : Nat) (copies : Nat → Bool) (hr : c.r < 2 ^ 32) (hw : c.w < 2 ^ 32)
    (hbytes : consBytes c = l ++ rest) (hline : ∀ x ∈ l, InLine x)
    (hcopied : ∀ j, j < l.length → copies (got.length + j) = true) :
    consBytes { c with r := (c.r + l.length) % 2 ^ 32 } = rest ∧
      readRun target copies (n + l.length) c got =
        readRun target copies n { c with r := (c.r + l.length) % 2 ^ 32 } (got ++ l) := by
  induction l generalizing c got with
  | nil =>
    rw [List.length_nil, Nat.add_zero, Nat.mod_eq_of_lt hr, List.append_nil]
    exact ⟨hbytes, rfl⟩
  | cons x l ih =>
    have hne := ringBytes_ne hbytes
    obtain ⟨hx, htail⟩ := List.cons.inj (hbytes.symm.trans (ringBytes_cons _ hr hw hne))
    have hmod : (c.r + 1) % 2 ^ 32 < 2 ^ 32 := Nat.mod_lt _ (by decide)
    obtain ⟨hctrl, hnl⟩ := hline x List.mem_cons_self
    have hcopy : ¬ copies got.length = false := by
      rw [Bool.not_eq_false]
      exact hcopied 0 (Nat.succ_pos _)
    obtain ⟨hleft, hrun⟩ := @ih (got ++ [x]) c.take hmod hw htail.symm
      (fun y hy => hline y (List.mem_cons_of_mem x hy)) fun j hj => by
        rw [List.length_append, List.length_singleton, Nat.add_assoc, Nat.add_comm 1]
        exact hcopied (j + 1) (Nat.succ_lt_succ hj)
    have hmoved : (c.take.r + l.length) % 2 ^ 32 = (c.r + (x :: l).length) % 2 ^ 32 := by
      rw [Cons.take, Nat.mod_add_mod, List.length_cons, Nat.add_assoc, Nat.add_comm 1]
    rw [hmoved] at hleft hrun
    refine ⟨hleft, ?_⟩
    rw [List.length_cons, ← Nat.add_assoc, readRun, if_neg hne, ← hx]
    dsimp only
    rw [if_neg hctrl, if_neg hcopy, if_neg hnl, hrun, List.append_assoc]
    rfl

theorem consoleTurn_eq {run : Cons × List UInt8 × Bool}
    (h : readRun target (fun k => s.user.takes (addr + k)) (target - got.length) s.cons got = run) :
    consoleTurn addr target got s = .ok run.2
      { s with cons := run.1, user := s.user.put (addr + got.length) (run.2.1.drop got.length) } := by
  have hcopies : (fun k => (copyout s.user (addr + k) [0]).2) = fun k => s.user.takes (addr + k) :=
    funext fun k => by rw [copyout_byte]
  rw [← h, ← hcopies]
  rfl

theorem consoleTurn_faults (hr : s.cons.r < 2 ^ 32) (hw : s.cons.w < 2 ^ 32)
    (hbytes : consBytes s.cons = l ++ b :: rest) (hline : ∀ x ∈ l, InLine x) (hb : b ≠ ctrlD)
    (h : Faults s.user (addr + got.length) (target - got.length) l) :
    consoleTurn addr target got s = .ok (got ++ l, false)
      { s with cons := { s.cons with r := (s.cons.r + (l ++ [b]).length) % 2 ^ 32 },
               user := s.user.put (addr + got.length) l } := by
  have hasked := h.asked
  obtain ⟨n, hn⟩ : ∃ n, target - got.length = n + 1 + l.length := ⟨target - got.length - l.length - 1, by omega⟩
  have hcopied : ∀ j, j < l.length → s.user.takes (addr + (got.length + j)) = true := fun j hj => by
    rw [← Nat.add_assoc]
    exact h.copied j hj
  have hfails : s.user.takes (addr + (got ++ l).length) = false := by
    rw [List.length_append, ← Nat.add_assoc]
    exact h.fails
  obtain ⟨hleft, hrun⟩ := readRun_passes target (n + 1) (fun k => s.user.takes (addr + k))
    hr hw hbytes hline hcopied
  have hne := ringBytes_ne hleft
  have hmod : (s.cons.r + l.length) % 2 ^ 32 < 2 ^ 32 := Nat.mod_lt _ (by decide)
  obtain ⟨hx, -⟩ := List.cons.inj (hleft.symm.trans (ringBytes_cons _ hmod hw hne))
  rw [← hn, readRun, if_neg hne, ← hx] at hrun
  dsimp only at hrun
  rw [if_neg hb, if_pos hfails, Cons.take, Nat.mod_add_mod, Nat.add_assoc] at hrun
  rw [consoleTurn_eq hrun]
  dsimp only
  rw [List.drop_left, List.length_append, List.length_singleton]

theorem consoleTurn_sleeps (addr target : Nat) (got : List UInt8) (hr : s.cons.r < 2 ^ 32) (hw : s.cons.w < 2 ^ 32)
    (hline : ∀ x ∈ consBytes s.cons, InLine x)
    (hcopied : ∀ j, j < (consBytes s.cons).length → s.user.takes (addr + got.length + j) = true)
    (htarget : got.length + (consBytes s.cons).length < target) :
    consoleTurn addr target got s = .ok (got ++ consBytes s.cons, true)
      { s with cons := { s.cons with r := (s.cons.r + (consBytes s.cons).length) % 2 ^ 32 },
               user := s.user.put (addr + got.length) (consBytes s.cons) } := by
  obtain ⟨n, hn⟩ : ∃ n, target - got.length = n + 1 + (consBytes s.cons).length :=
    ⟨target - got.length - (consBytes s.cons).length - 1, by omega⟩
  obtain ⟨hleft, hrun⟩ := readRun_passes target (n + 1) (fun k => s.user.takes (addr + k))
    hr hw (List.append_nil _).symm hline fun j hj => by
      rw [← Nat.add_assoc]
      exact hcopied j hj
  have hempty : (s.cons.r + (consBytes s.cons).length) % 2 ^ 32 = s.cons.w := by
    by_contra hne
    have hmod : (s.cons.r + (consBytes s.cons).length) % 2 ^ 32 < 2 ^ 32 := Nat.mod_lt _ (by decide)
    exact List.cons_ne_nil _ _ ((ringBytes_cons _ hmod hw hne).symm.trans hleft)
  rw [← hn, readRun, if_pos hempty] at hrun
  rw [consoleTurn_eq hrun]
  dsimp only
  rw [List.drop_left]

/-- What a call of `consoleread` takes out of the console, over all the times that it holds the lock. -/
def consoleTaken (addr target : Nat) : List Wake → List UInt8 → Sys → List UInt8
  | wakes, got, s =>
    match consoleTurn addr target got s with
    | .error _ _ => []
    | .ok (got', asleep) t =>
      ringBytes inputBufSize s.cons.buf s.cons.r t.cons.r ++
        match wakes with
        | [] => []
        | wake :: wakes =>
          if asleep = true ∧ wake.killed = false then
            consoleTaken addr target wakes got' { t with cons := wake.cons }
          else []

/-- The call takes `l` and `b`, and only `l` gets to the user. -/
def ConsoleLoses (addr target : Nat) (wakes : List Wake) (got : List UInt8) (s : Sys) (l : List UInt8)
    (b : UInt8) : Prop :=
  consoleTaken addr target wakes got s = l ++ [b] ∧
    Completes (consoleLoop addr target wakes got) s fun r t => r = (got ++ l).length ∧
      t.user = s.user.put (addr + got.length) l

theorem consoleLoop_faults_now (wakes : List Wake) (hr : s.cons.r < 2 ^ 32) (hw : s.cons.w < 2 ^ 32)
    (hbytes : consBytes s.cons = l ++ b :: rest) (hline : ∀ x ∈ l, InLine x) (hb : b ≠ ctrlD)
    (h : Faults s.user (addr + got.length) (target - got.length) l) :
    ConsoleLoses addr target wakes got s l b := by
  have hturn := consoleTurn_faults hr hw hbytes hline hb h
  have hmoved := ringBytes_moved (l := l ++ [b]) hr (by rwa [List.append_cons] at hbytes)
  cases wakes with
  | nil =>
    rw [ConsoleLoses, consoleTaken, consoleLoop, Completes, Ensures, bind_of_ok hturn, hturn]
    dsimp only
    rw [hmoved, List.append_nil]
    exact ⟨rfl, rfl, rfl⟩
  | cons wake wakes =>
    rw [ConsoleLoses, consoleTaken, consoleLoop, Completes, Ensures, bind_of_ok hturn, hturn]
    dsimp only
    rw [hmoved, if_neg fun hc => Bool.false_ne_true hc.1, List.append_nil]
    exact ⟨rfl, rfl, rfl⟩

theorem append_eq_cases {a m : List UInt8} (h : a ++ m = l ++ b :: rest) :
    (∃ rest', a = l ++ b :: rest') ∨ ∃ l', l = a ++ l' ∧ m = l' ++ b :: rest := by
  obtain ⟨l', hl, hm⟩ | ⟨x, ha, hx⟩ := List.append_eq_append_iff.mp h
  · exact .inr ⟨l', hl, hm⟩
  · cases x with
    | nil => exact .inr ⟨[], by rw [ha, List.append_nil, List.append_nil], hx.symm⟩
    | cons y x => exact .inl ⟨x, by rw [ha, (List.cons.inj hx).1]⟩

theorem consoleLoop_faults (target : Nat) (got : List UInt8) (wakes : List Wake) (hr : s.cons.r < 2 ^ 32)
    (hw : s.cons.w < 2 ^ 32)
    (hwakes : ∀ w ∈ wakes, w.cons.r < 2 ^ 32 ∧ w.cons.w < 2 ^ 32)
    (hin : consoleInput wakes s.cons = l ++ b :: rest) (hline : ∀ x ∈ l, InLine x) (hb : b ≠ ctrlD)
    (h : Faults s.user (addr + got.length) (target - got.length) l) :
    ConsoleLoses addr target wakes got s l b := by
  induction wakes generalizing s got l with
  | nil => exact consoleLoop_faults_now [] hr hw hin hline hb h
  | cons wake wakes ih =>
    obtain ⟨rest', hnow⟩ | ⟨l', rfl, hmore⟩ := append_eq_cases hin
    · exact consoleLoop_faults_now _ hr hw hnow hline hb h
    -- all that is there is copied, and the call sleeps
    have hasked := h.asked
    rw [List.length_append] at hasked
    have hturn := consoleTurn_sleeps addr target got hr hw
      (fun x hx => hline x (List.mem_append_left _ hx))
      (fun j hj => h.copied j (by rw [List.length_append]; omega)) (by omega)
    have hmoved : ringBytes inputBufSize s.cons.buf s.cons.r
        ((s.cons.r + (consBytes s.cons).length) % 2 ^ 32) = consBytes s.cons :=
      ringBytes_moved hr (List.append_nil (consBytes s.cons)).symm
    have halive : wake.killed = false := by
      by_contra hk
      rw [if_pos (Bool.not_eq_false _ ▸ hk)] at hmore
      exact List.append_ne_nil_of_right_ne_nil _ (List.cons_ne_nil _ _) hmore.symm
    rw [halive, if_neg Bool.false_ne_true] at hmore
    have hlater := h.tail
    rw [Nat.add_assoc, ← List.length_append, Int.sub_sub, ← Int.natCast_add, ← List.length_append] at hlater
    obtain ⟨hcr, hcw⟩ := hwakes wake List.mem_cons_self
    obtain ⟨htaken, hloop⟩ := ih _ (s := { s with cons := wake.cons, user := s.user.put (addr + got.length) _ })
      hcr hcw (fun w hw => hwakes w (List.mem_cons_of_mem _ hw)) hmore
      (fun x hx => hline x (List.mem_append_right _ hx)) (hlater.put _ _)
    constructor
    · rw [consoleTaken, hturn]
      dsimp only
      rw [if_pos ⟨rfl, halive⟩, htaken, hmoved, List.append_assoc]
    · rw [consoleLoop, Completes, Ensures, bind_of_ok hturn]
      dsimp only
      rw [if_pos rfl, halive, if_neg Bool.false_ne_true]
      refine Ensures.bind_modify (hloop.post ?_)
      rintro r t ⟨hret, huser⟩
      refine ⟨by rwa [← List.append_assoc], ?_⟩
      rw [huser, List.length_append, ← Nat.add_assoc, User.put_put]

end Console

/-- The counters of the rings are 32 bits wide, as the call finds them and after each sleep. -/
structure Counters (s : Sys) (wakes : List Wake) : Prop where
  pipe : s.pipe.nread < 2 ^ 32 ∧ s.pipe.nwrite < 2 ^ 32
  cons : s.cons.r < 2 ^ 32 ∧ s.cons.w < 2 ^ 32
  pipes : ∀ w ∈ wakes, w.pipe.nread < 2 ^ 32 ∧ w.pipe.nwrite < 2 ^ 32
  consoles : ∀ w ∈ wakes, w.cons.r < 2 ^ 32 ∧ w.cons.w < 2 ^ 32

theorem pipeFound_mem (wakes : List Wake) {d d' : Pipe.Data} (h : pipeFound wakes d = some d') :
    d' = d ∨ ∃ w ∈ wakes, d' = w.pipe := by
  induction wakes generalizing d with
  | nil =>
    rw [pipeFound] at h
    split_ifs at h
    exact .inl (Option.some.inj h).symm
  | cons wake wakes ih =>
    rw [pipeFound] at h
    split_ifs at h
    · obtain rfl | ⟨w, hw, rfl⟩ := ih h
      · exact .inr ⟨wake, List.mem_cons_self, rfl⟩
      · exact .inr ⟨w, List.mem_cons_of_mem _ hw, rfl⟩
    · exact .inl (Option.some.inj h).symm

/-- A read from a pipe or from the console in which a copy fails removes one byte more than it has copied and
counts. -/
theorem failed_reads_lose_byte (addr : Nat) (n : Int32) (wakes : List Wake) (hcount : Counters s wakes)
    (h : Faults s.user addr n.toInt l) :
    (∀ d, pipeFound wakes s.pipe = some d → pipeBytes d = l ++ b :: rest →
      Completes (piperead addr n.toInt wakes) s fun r t => r = l.length ∧ t.user = s.user.put addr l ∧
        pipeTaken d t.pipe = l ++ [b]) ∧
    (consoleInput wakes s.cons = l ++ b :: rest → (∀ x ∈ l, InLine x) → b ≠ ctrlD →
      Completes (consoleread addr n.toInt wakes) s fun r t => r = l.length ∧ t.user = s.user.put addr l ∧
        consoleTaken addr n.toInt.toNat wakes [] s = l ++ [b]) := by
  have hasked := h.asked
  constructor
  · intro d hd hbytes
    have hsmall : d.nread < 2 ^ 32 ∧ d.nwrite < 2 ^ 32 := by
      obtain rfl | ⟨w, hw, rfl⟩ := pipeFound_mem wakes hd
      · exact hcount.pipe
      · exact hcount.pipes w hw
    unfold piperead
    refine (pipeWait_found wakes hd).seq ?_
    rintro _ t ⟨rfl, hu, rfl⟩
    rw [if_neg Bool.false_ne_true]
    have hfault : Faults t.user (addr + 0) (n.toInt - (0 : Nat)) l := by
      rw [hu]
      exact ⟨by omega, h.copied, h.fails⟩
    refine (pipeCopy_faults hsmall.1 hsmall.2 (by omega) hfault hbytes).post ?_
    rintro r x ⟨hret, huser, hread⟩
    refine ⟨by omega, by rw [huser, hu, Nat.add_zero], ?_⟩
    rw [pipeTaken, hread]
    exact ringBytes_moved hsmall.1 (by rwa [List.append_cons] at hbytes)
  · intro hin hline hb
    obtain ⟨htaken, hloop⟩ := consoleLoop_faults n.toInt.toNat [] wakes hcount.cons.1
      hcount.cons.2 hcount.consoles hin hline hb ⟨by rw [List.length_nil]; omega, h.copied, h.fails⟩
    exact hloop.post fun r t ht => ⟨ht.1, ht.2, htaken⟩

/-- The pipe and the console hold the bytes 7, 8 and 9; the caller has one page, at address 4096. -/
def lostSys : Sys where
  vol := Blocks.rootVol 1
  user := ⟨fun a => a == 4096, []⟩
  pipe := ⟨fun k => 7 + .ofNat k, 0, 3, true, true⟩
  cons := ⟨fun k => 7 + .ofNat k, 0, 3, 3⟩
  off := 0

/-- Two bytes are read from the pipe to the end of the page. -/
theorem failed_reads_lose_byte_second :
    Completes (piperead 8191 2 []) lostSys fun r t => r = 1 ∧ t.user.out = [(8191, 7)] ∧
      (pipeTaken lostSys.pipe t.pipe).length = 2 := by
  have hcount : Counters lostSys [] := ⟨by decide, by decide, nofun, nofun⟩
  have hfault : Faults lostSys.user 8191 (2 : Int32).toInt [7] := by
    refine ⟨by decide, fun j hj => ?_, by decide⟩
    obtain rfl : j = 0 := Nat.lt_one_iff.mp hj
    decide
  refine ((failed_reads_lose_byte 8191 2 [] hcount hfault).1 lostSys.pipe rfl
    (show pipeBytes lostSys.pipe = [7] ++ 8 :: [9] by decide)).post ?_
  rintro r t ⟨hret, huser, htaken⟩
  exact ⟨hret, by rw [huser]; rfl, by rw [htaken]; rfl⟩

/-- The second byte is to go to a page that cannot be written to: the call returns 1, and both bytes are
gone. -/
theorem failed_copy_loses_byte :
    Ensures (piperead 8191 2 []) lostSys
      (fun r t => r = 1 ∧ t.user.out = [(8191, 7)] ∧ pipeTaken lostSys.pipe t.pipe = [7, 8]) (fun _ _ => False) ∧
    Ensures (consoleread 8191 2 []) lostSys
      (fun r t => r = 1 ∧ t.user.out = [(8191, 7)] ∧ consoleTaken 8191 2 [] [] lostSys = [7, 8])
      (fun _ _ => False) := by
  decide +kernel

end Xv6.FileRead
