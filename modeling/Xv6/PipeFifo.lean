import Xv6.Pipe

namespace Xv6.Pipe

open Xv6.Lib Xv6.Threads

def State.entries (d : State) (call : Nat) : List Entry := d.put.filter (·.call = call)

/-- Between two bytes of one call there are bytes of others only if it slept in between. -/
def Unbroken (put : List Entry) : Prop :=
  ∀ (i j k : Nat) (x y z : Entry), i < j → j < k → put[i]? = some x → put[j]? = some y →
    put[k]? = some z → x.call = z.call → x.slept = z.slept → y.call = x.call

/-- Nobody else has put anything in since the writer's last sleep, if it has put something in. -/
def Writer.Last (w : Writer) (put : List Entry) : Prop :=
  ∀ (i j : Nat) (x y : Entry), i ≤ j → put[i]? = some x → put[j]? = some y → x.call = w.call →
    x.slept = w.slept → y.call = w.call

structure Writer.Knows (w : Writer) (d : State) : Prop where
  call : w.call < d.calls
  count : (d.entries w.call).length = w.i
  slept : ∀ e ∈ d.put, e.call = w.call → e.slept ≤ w.slept

/-- The bytes put in are those taken out followed by those in the ring, and each call's are in order. -/
structure Fifo (d : State) : Prop where
  queue : ∃ q, RingHolds (2 ^ 32) pipeSize d.data d.nread d.nwrite q ∧
    d.put.map (·.byte) = d.taken ++ q
  calls : ∀ e ∈ d.put, e.call < d.calls
  ordered : ∀ call, (d.entries call).map (·.index) = List.range (d.entries call).length
  unbroken : Unbroken d.put

variable {d : State} {w : Writer} {ch : UInt8} {e : Entry} {put : List Entry}

theorem getElem?_concat_cases {k : Nat} {z : Entry} (h : (put ++ [e])[k]? = some z) :
    put[k]? = some z ∨ k = put.length ∧ z = e := by
  by_cases hk : k < put.length
  · rw [List.getElem?_append_left hk] at h
    exact .inl h
  · have hlt := (List.getElem?_eq_some_iff.mp h).1
    rw [List.length_append, List.length_singleton] at hlt
    obtain rfl : k = put.length := by omega
    rw [List.getElem?_concat_length] at h
    exact .inr ⟨rfl, (Option.some.inj h).symm⟩

theorem Unbroken.concat (h : Unbroken put)
    (hlast : ∀ (i j : Nat) (x y : Entry), i ≤ j → put[i]? = some x → put[j]? = some y →
      x.call = e.call → x.slept = e.slept → y.call = e.call) : Unbroken (put ++ [e]) := by
  intro i j k x y z hij hjk hx hy hz hcall hslept
  have hlt := (List.getElem?_eq_some_iff.mp hz).1
  rw [List.length_append, List.length_singleton] at hlt
  rw [List.getElem?_append_left (by omega)] at hx hy
  rcases getElem?_concat_cases hz with hz | ⟨-, rfl⟩
  · exact h i j k x y z hij hjk hx hy hz hcall hslept
  · rw [hlast i j x y (by omega) hx hy hcall hslept, hcall]

theorem Writer.Last.concat (h : w.Last put) (hcall : e.call = w.call) : w.Last (put ++ [e]) := by
  intro i j x y hij hx hy hxw hxs
  rcases getElem?_concat_cases hy with hy | ⟨-, rfl⟩
  · have hlt := (List.getElem?_eq_some_iff.mp hy).1
    rw [List.getElem?_append_left (by omega)] at hx
    exact h i j x y hij hx hy hxw hxs
  · exact hcall

theorem Writer.Knows.last (h : w.Knows d) : { w with slept := w.slept + 1 : Writer }.Last d.put := by
  intro i j x y _ hx _ hcall hslept
  have hle := h.slept x (List.mem_of_getElem? hx) hcall
  have hslept : x.slept = w.slept + 1 := hslept
  omega

theorem entries_write (c : Nat) : (d.write w ch).entries c = d.entries c ++
    if w.call = c then [{ byte := ch, call := w.call, index := w.i, slept := w.slept }] else [] := by
  by_cases h : w.call = c <;> simp [State.entries, State.write, List.filter_append, h]

theorem Writer.Knows.write_other {w' : Writer} (h : w'.Knows d) (hne : w.call ≠ w'.call) :
    w'.Knows (d.write w ch) := by
  refine ⟨h.call, ?_, fun e he hcall => ?_⟩
  · rw [entries_write, if_neg hne, List.append_nil]
    exact h.count
  · rcases List.mem_append.mp he with he | he
    · exact h.slept e he hcall
    · rw [List.mem_singleton.mp he] at hcall
      exact absurd hcall hne

theorem Writer.Knows.write_self (h : w.Knows d) :
    { w with i := w.i + 1, dirty := true : Writer }.Knows (d.write w ch) := by
  refine ⟨h.call, ?_, fun e he hcall => ?_⟩
  · rw [entries_write, if_pos rfl, List.length_append, List.length_singleton, h.count]
  · rcases List.mem_append.mp he with he | he
    · exact h.slept e he hcall
    · rw [List.mem_singleton.mp he]

theorem Fifo.write (h : Fifo d) (hw : w.Knows d) (hlast : w.Last d.put) (hroom : ¬ d.full) :
    Fifo (d.write w ch) := by
  obtain ⟨q, hring, hput⟩ := h.queue
  have hlen : q.length < pipeSize :=
    lt_of_le_of_ne hring.fits fun he => hroom ((hring.full_iff (by decide)).mpr he)
  refine ⟨⟨q ++ [ch], hring.push (by decide) hlen, ?_⟩, fun e he => ?_, fun c => ?_, ?_⟩
  · simp [State.write, hput]
  · rcases List.mem_append.mp he with he | he
    · exact h.calls e he
    · rw [List.mem_singleton.mp he]
      exact hw.call
  · rw [entries_write]
    split
    · next hc =>
      subst hc
      rw [List.map_append, List.length_append, List.length_singleton, List.range_succ, h.ordered,
        hw.count]
      rfl
    · rw [List.append_nil]
      exact h.ordered c
  · exact h.unbroken.concat hlast

theorem Fifo.read (h : Fifo d) (hne : ¬ d.empty) : Fifo d.read := by
  obtain ⟨q, hring, hput⟩ := h.queue
  cases q with
  | nil => exact absurd ((hring.eq_nil_iff (by decide)).mpr rfl) hne
  | cons x q =>
    refine ⟨⟨q, hring.pop, ?_⟩, h.calls, h.ordered, h.unbroken⟩
    rw [State.read, hring.front, List.append_assoc]
    exact hput

theorem Fifo.close (h : Fifo d) (writable : Bool) : Fifo (d.close writable) := by
  unfold State.close
  split
  · exact ⟨h.queue, h.calls, h.ordered, h.unbroken⟩
  · exact ⟨h.queue, h.calls, h.ordered, h.unbroken⟩

theorem Fifo.begin (h : Fifo d) : Fifo { d with calls := d.calls + 1 } :=
  ⟨h.queue, fun e he => Nat.lt_succ_of_lt (h.calls e he), h.ordered, h.unbroken⟩

theorem Fifo.fresh (h : Fifo d) (n : Int) :
    (Writer.mk n 0 d.calls 0 false).Knows { d with calls := d.calls + 1 } ∧
      (Writer.mk n 0 d.calls 0 false).Last d.put := by
  have hne : ∀ e ∈ d.put, e.call ≠ d.calls := fun e he => (h.calls e he).ne
  refine ⟨⟨Nat.lt_succ_self _, ?_, fun e he hcall => absurd hcall (hne e he)⟩,
    fun i j x y _ hx _ hcall => absurd hcall (hne x (List.mem_of_getElem? hx))⟩
  exact List.length_eq_zero_iff.mpr (List.filter_eq_nil_iff.mpr fun e he => by simpa using hne e he)

theorem Fifo.alloc (data : Nat → UInt8) : Fifo (State.alloc data) :=
  ⟨⟨[], RingHolds.empty (by decide), rfl⟩, fun e he => absurd he List.not_mem_nil, fun _ => rfl,
    fun i _ _ x _ _ _ _ hx => by simp [State.alloc] at hx⟩

/-- The call of `pipewrite` at a position, once it has a number. -/
def Position.writer : Position → Option Writer
  | .writeHead w => some w
  | .writeKilled w => some w
  | .writeTry w => some w
  | .writeWake w => some w
  | .writeSleep w => some w
  | .writeSlept w => some w
  | .writeEnd w => some w
  | _ => none

def fifoMonitor : Monitor Addr Position State where
  entry := Position.isCall
  sleeps _ := true
  inside := Position.inside
  bad _ := false
  inv := Fifo
  pre
    | .writeSlept _, _ => True
    | x, d => ∀ w ∈ x.writer, w.Last d.put
  own x d := ∀ w ∈ x.writer, w.Knows d
  apart x z := ∀ w ∈ x.writer, ∀ w' ∈ z.writer, w.call ≠ w'.call
  ready _ _ := False
  owes _ _ := False

variable {k x : Position}

theorem fifoMonitor_goes {d d' : State} (hput : d'.put = d.put) (hcalls : d'.calls = d.calls)
    (hk : ∀ w ∈ k.writer, w.Knows d ∧ ∃ w' ∈ x.writer, w'.call = w.call) :
    fifoMonitor.Goes x k d d' := by
  have hkeeps : ∀ w : Writer, w.Knows d → w.Knows d' := by
    intro w hw
    have hentries : d'.entries w.call = d.entries w.call := by rw [State.entries, hput, State.entries]
    exact ⟨hcalls ▸ hw.call, hentries ▸ hw.count, hput ▸ hw.slept⟩
  refine ⟨fun _ => rfl, fun w hw => hkeeps w (hk w hw).1, fun z hz hown =>
    ⟨fun w hw => hkeeps w (hown w hw), fun w hw w' hw' => ?_⟩⟩
  obtain ⟨-, v, hv, he⟩ := hk w hw
  rw [← he]
  exact hz v hv w' hw'

theorem fifoMonitor_leaves {d d' : State} (hput : d'.put = d.put)
    (hcalls : d'.calls = d.calls) (hk : k.writer = none) :
    fifoMonitor.Goes x k d d' ∧ fifoMonitor.pre k d' := by
  refine ⟨fifoMonitor_goes hput hcalls fun w hw => ?_, ?_⟩
  · rw [hk] at hw
    cases hw
  · cases k with
    | writeSlept w => trivial
    | _ => exact fun w hw => by cases hk ▸ hw

theorem fifoMonitor_moves {w' : Writer} (hx : x.writer = some w)
    (hk : k.writer = some w') (hown : fifoMonitor.own x d) (hlast : w.Last d.put)
    (hcall : w'.call = w.call) (hi : w'.i = w.i) (hslept : w'.slept = w.slept) :
    fifoMonitor.Goes x k d d ∧ fifoMonitor.pre k d := by
  have hw := hown w hx
  have hknows : w'.Knows d := ⟨hcall ▸ hw.call, hcall ▸ hi ▸ hw.count, hcall ▸ hslept ▸ hw.slept⟩
  have hlast' : w'.Last d.put := by
    unfold Writer.Last
    rw [hcall, hslept]
    exact hlast
  refine ⟨fifoMonitor_goes rfl rfl fun v hv => ?_, ?_⟩
  · cases hk ▸ hv
    exact ⟨hknows, w, hx, hcall.symm⟩
  · cases k with
    | writeSlept w => trivial
    | _ =>
      intro v hv
      cases hk ▸ hv
      exact hlast'

theorem fifoMonitor_begins (n : Int) (h : Fifo d) :
    fifoMonitor.Goes (.writeBegin n) (.writeHead (Writer.mk n 0 d.calls 0 false)) d
      { d with calls := d.calls + 1 } := by
  refine ⟨fun _ => rfl, fun w hw => ?_, fun z _ hown => ⟨fun w hw => ?_, fun w hw w' hw' => ?_⟩⟩
  · cases hw
    exact (h.fresh n).1
  · have hw := hown w hw
    exact ⟨Nat.lt_succ_of_lt hw.call, hw.count, hw.slept⟩
  · cases hw
    exact (hown w' hw').call.ne'

theorem fifoMonitor_puts (hw : w.Knows d) :
    fifoMonitor.Goes (.writeTry w) (.writeHead { w with i := w.i + 1, dirty := true }) d
      (d.write w ch) := by
  refine ⟨fun _ => rfl, fun v hv => ?_, fun z hz hown =>
    ⟨fun v hv => (hown v hv).write_other (hz w rfl v hv), fun v hv v' hv' => ?_⟩⟩
  · cases hv
    exact hw.write_self
  · cases hv
    exact hz w rfl v' hv'

theorem fifoMonitor_access {d d' : State} (hx : x.inside = true)
    (h : fifoMonitor.Goes x k d d' ∧ fifoMonitor.pre k d') (hinv : Fifo d') :
    fifoMonitor.Accessed x k d d' := by
  refine ⟨rfl, h.1, hinv, ?_, fun _ h => h, fun _ h => h.elim⟩
  rw [if_pos (show fifoMonitor.inside x = true from hx)]
  exact h.2

theorem fifoMonitor_killed (h : fifoMonitor.Goes x k d d ∧ fifoMonitor.pre k d) :
    fifoMonitor.Goes x k d d ∧ (fifoMonitor.inside x = true → fifoMonitor.pre k d) ∧
      ∀ ch, fifoMonitor.owes ch x → fifoMonitor.owes ch k :=
  ⟨h.1, fun _ => h.2, fun _ h => h⟩

theorem fifoMonitor_checked (x : Position) (d : State) (hinv : Fifo d) (hown : fifoMonitor.own x d)
    (hpre : x.inside = true → fifoMonitor.pre x d) : fifoMonitor.Checked code x d := by
  unfold Monitor.Checked
  cases x with
  | writeCall n | readCall n | closeCall writable => exact ⟨rfl, fifoMonitor_leaves rfl rfl rfl⟩
  | writeBegin n =>
    refine fun v => fifoMonitor_access rfl ⟨fifoMonitor_begins n hinv, fun w hw => ?_⟩ hinv.begin
    cases hw
    exact (hinv.fresh n).2
  | writeHead w =>
    refine fun v => fifoMonitor_access rfl ?_ hinv
    dsimp only
    split_ifs
    · exact fifoMonitor_leaves rfl rfl rfl
    · exact fifoMonitor_moves rfl rfl hown (hpre rfl w rfl) rfl rfl rfl
    · exact fifoMonitor_moves rfl rfl hown (hpre rfl w rfl) rfl rfl rfl
  | writeKilled w =>
    refine fun b _ => fifoMonitor_killed ?_
    cases b with
    | true => exact fifoMonitor_leaves rfl rfl rfl
    | false => exact fifoMonitor_moves rfl rfl hown (hpre rfl w rfl) rfl rfl rfl
  | writeTry w =>
    have hlast := hpre rfl w rfl
    have hw := hown w rfl
    intro v
    by_cases hfull : d.full
    · simp only [if_pos hfull]
      exact fifoMonitor_access rfl (fifoMonitor_moves rfl rfl hown hlast rfl rfl rfl) hinv
    · simp only [if_neg hfull]
      cases v with
      | none => exact fifoMonitor_access rfl (fifoMonitor_moves rfl rfl hown hlast rfl rfl rfl) hinv
      | some ch =>
        refine fifoMonitor_access rfl ⟨fifoMonitor_puts hw, fun v hv => ?_⟩ (hinv.write hw hlast hfull)
        cases hv
        exact hlast.concat rfl
  | writeWake w =>
    exact ⟨rfl, and_assoc.mp ⟨fifoMonitor_moves rfl rfl hown (hpre rfl w rfl) rfl rfl rfl,
      fun _ h => h.elim⟩⟩
  | writeSleep w =>
    exact ⟨rfl, (fifoMonitor_moves rfl rfl hown (hpre rfl w rfl) rfl rfl rfl).1, fun _ h => h, id,
      fun _ _ _ => trivial⟩
  | writeSlept w =>
    have hw := hown w rfl
    refine fun v => fifoMonitor_access rfl ⟨fifoMonitor_goes rfl rfl fun v hv => ?_, fun v hv => ?_⟩ hinv
    · cases hv
      exact ⟨⟨hw.call, hw.count, fun e he hc => Nat.le_succ_of_le (hw.slept e he hc)⟩, w, rfl, rfl⟩
    · cases hv
      exact hw.last
  | writeEnd w | readEnd r | closeWake writable =>
    exact ⟨rfl, and_assoc.mp ⟨fifoMonitor_leaves rfl rfl rfl, fun _ h => h.elim⟩⟩
  | writeRelease r dirty | readRelease r | closeRelease =>
    exact ⟨rfl, (fifoMonitor_leaves rfl rfl rfl).1, fun _ h => h⟩
  | readHead n =>
    refine fun v => fifoMonitor_access rfl (fifoMonitor_leaves rfl rfl ?_) hinv
    dsimp only
    split_ifs <;> rfl
  | readKilled n =>
    exact fun b _ => fifoMonitor_killed (fifoMonitor_leaves rfl rfl (by cases b <;> rfl))
  | readSleep n =>
    exact ⟨rfl, (fifoMonitor_leaves rfl rfl rfl).1, fun _ h => h, id, fun _ _ _ w hw => by cases hw⟩
  | readCopy n i =>
    intro v
    by_cases hi : i < n
    · simp only [if_pos hi]
      by_cases hempty : d.empty
      · simp only [if_pos hempty]
        exact fifoMonitor_access rfl (fifoMonitor_leaves rfl rfl rfl) hinv
      · simp only [if_neg hempty]
        exact fifoMonitor_access rfl (fifoMonitor_leaves rfl rfl (by cases v <;> rfl))
          (hinv.read hempty)
    · simp only [if_neg hi]
      exact fifoMonitor_access rfl (fifoMonitor_leaves rfl rfl rfl) hinv
  | closeSet writable =>
    refine fun v => fifoMonitor_access rfl (fifoMonitor_leaves ?_ ?_ rfl) (hinv.close writable)
    · cases writable <;> rfl
    · cases writable <;> rfl
  | done r => trivial

theorem fifoMonitor_sound : fifoMonitor.Sound code := by
  refine ⟨code_locked rfl fun _ => rfl, fun x hx => ?_, fun x z hxz w hw w' hw' =>
    (hxz w' hw' w hw).symm, fun _ _ h => h.elim, fun x d _ => fifoMonitor_checked x d⟩
  have hnone : x.inside = false ∧ x.writer = none := by cases x <;> first | exact ⟨rfl, rfl⟩ | cases hx
  refine ⟨hnone.1, rfl, fun d w hw => ?_, fun z w hw => ?_⟩
  · rw [hnone.2] at hw
    cases hw
  · rw [hnone.2] at hw
    cases hw

variable {n : Nat} {κ : Type} {s : Sys n κ Unit Addr Position State}

theorem Calls.allows_fifo {a : κ × Op Position (Option UInt8)} (h : Calls a) :
    fifoMonitor.Allows code s a := by
  obtain ⟨c, op⟩ := a
  unfold Monitor.Allows
  split
  · next heq =>
    cases heq
    exact h
  · next heq =>
    cases heq
    exact h.elim
  · split
    · split
      · rfl
      · trivial
    · trivial
  · trivial

/-- What has been taken out is a prefix of what has been put in, and the rest is in the ring; the bytes of each
call are in order, with others between them only where it slept. -/
theorem pipe_fifo [DecidableEq κ] {data : Nat → UInt8} {p : Fin n}
    {as : List (κ × Op Position (Option UInt8))}
    (hrun : Run (step code) (fun _ a => Calls a) (init p (State.alloc data)) as s) :
    ∃ unread : List UInt8, s.data.put.map (·.byte) = s.data.taken ++ unread ∧
      (s.data.nwrite + 2 ^ 32 - s.data.nread) % 2 ^ 32 = unread.length ∧ unread.length ≤ pipeSize ∧
      (∀ k ch, unread[k]? = some ch → s.data.data ((s.data.nread + k) % 2 ^ 32 % pipeSize) = ch) ∧
      (∀ call, (s.data.entries call).map (·.index) = List.range (s.data.entries call).length) ∧
      Unbroken s.data.put := by
  obtain ⟨-, hh⟩ := fifoMonitor_sound.holds (Fifo.alloc data) (hrun.mono fun s a ha => ha.allows_fifo)
  have hfifo : Fifo s.data := hh.data
  obtain ⟨q, hring, hput⟩ := hfifo.queue
  exact ⟨q, hput, hring.count (by decide), hring.fits, hring.slots, hfifo.ordered, hfifo.unbroken⟩

/-- A process writes two bytes and reads one. -/
def fifoRun : List (Unit × Op Position (Option UInt8)) :=
  go () 3 ++ ((), .syscall (.writeCall 2)) :: go () 1 ++ ((), .access none) :: ((), .access none) ::
    go () 2 ++ ((), .access (some 7)) :: ((), .access none) :: go () 2 ++ ((), .access (some 8)) ::
    ((), .access none) :: go () 5 ++ ((), .syscall (.readCall 1)) :: go () 1 ++ ((), .access none) ::
    ((), .access (some 0)) :: ((), .access none) :: go () 5

theorem pipe_fifo_two_bytes : ∃ s : Sys 1 Unit Unit Addr Position State,
    Run (step code) (fun _ a => Calls a) (init 0 (State.alloc fun _ => 0)) fifoRun s ∧
      (s.data.taken = [7] ∧ s.data.put.map (·.byte) = [7, 8] ∧ s.data.nwrite = 2 ∧ s.data.nread = 1) ∧
      ∃ unread : List UInt8, s.data.put.map (·.byte) = s.data.taken ++ unread ∧
        (s.data.nwrite + 2 ^ 32 - s.data.nread) % 2 ^ 32 = unread.length ∧ unread.length ≤ pipeSize ∧
        (∀ k ch, unread[k]? = some ch → s.data.data ((s.data.nread + k) % 2 ^ 32 % pipeSize) = ch) ∧
        (∀ call, (s.data.entries call).map (·.index) = List.range (s.data.entries call).length) ∧
        Unbroken s.data.put := by
  have hrun : ∃ s : Sys 1 Unit Unit Addr Position State,
      Run (step code) (fun _ a => Calls a) (init 0 (State.alloc fun _ => 0)) fifoRun s ∧
        s.data.taken = [7] ∧ s.data.put.map (·.byte) = [7, 8] ∧ s.data.nwrite = 2 ∧ s.data.nread = 1 :=
    Run.exists_of_outcome (by decide +kernel)
  obtain ⟨s, hrun, hs⟩ := hrun
  exact ⟨s, hrun, hs, pipe_fifo hrun⟩

end Xv6.Pipe
