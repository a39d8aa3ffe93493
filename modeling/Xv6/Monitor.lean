import Xv6.ClientTurns

namespace Xv6.Threads

variable {n : Nat} {κ γ L D X : Type}

/-- Kernel code that uses its data under one lock, with what is claimed of it. It is called at `entry`, and
holds the lock at the positions `inside`, where `pre` holds besides `inv`. At any time `own` holds at the
position of a call, and `apart` at those of two. A sleeper on `ch` could go on if the channel is `ready`, and
whoever makes it so `owes` a wakeup. No call takes the position `bad` after `killed`. -/
structure Monitor (γ L D : Type) where
  entry : L → Bool
  sleeps : L → Bool
  inside : L → Bool
  bad : L → Bool
  inv : D → Prop
  pre : L → D → Prop
  own : L → D → Prop
  apart : L → L → Prop
  ready : γ → D → Prop
  owes : γ → L → Prop

namespace Monitor

variable (M : Monitor γ L D) (code : L → Instr Unit γ L D X)

def Locked (x : L) : Prop :=
  match code x with
  | .acquire _ k => M.inside x = false ∧ M.inside k = true
  | .release _ k => M.inside x = true ∧ M.inside k = false
  | .sleep _ _ k => M.inside x = true ∧ M.inside k = true ∧ M.sleeps x = true
  | .wakeup _ k => M.inside x = true ∧ M.inside k = true
  | .killed k => ∀ b, M.inside (k b) = M.inside x
  | .access f => ∀ v d, M.inside (f v d).2 = M.inside x
  | .ret => M.inside x = false

structure Goes (x k : L) (d d' : D) : Prop where
  sleeps : M.sleeps k = true → M.sleeps x = true
  own : M.own k d'
  others : ∀ z, M.apart x z → M.own z d → M.own z d' ∧ M.apart k z

structure Accessed (x k : L) (d d' : D) : Prop where
  bad : M.bad k = false
  goes : M.Goes x k d d'
  inv : M.inv d'
  pre : if M.inside x then M.pre k d' else ∀ z, M.apart x z → M.pre z d → M.pre z d'
  owes : ∀ ch, M.owes ch x → M.owes ch k
  ready : ∀ ch, M.ready ch d' → M.ready ch d ∨ M.owes ch k

def Checked (x : L) (d : D) : Prop :=
  match code x with
  | .acquire _ k => M.bad k = false ∧ M.Goes x k d d ∧ M.pre k d
  | .release _ k => M.bad k = false ∧ M.Goes x k d d ∧ ∀ ch, ¬ M.owes ch x
  | .sleep ch _ k => M.bad k = false ∧ M.Goes x k d d ∧ (∀ ch, ¬ M.owes ch x) ∧ ¬ M.ready ch d ∧
      ∀ d, M.inv d → M.own k d → M.pre k d
  | .wakeup ch k => M.bad k = false ∧ M.Goes x k d d ∧ M.pre k d ∧
      ∀ ch', M.owes ch' x → ch' = ch ∨ M.owes ch' k
  | .killed k => ∀ b, M.bad (k b) = false → M.Goes x (k b) d d ∧ (M.inside x = true → M.pre (k b) d) ∧
      ∀ ch, M.owes ch x → M.owes ch (k b)
  | .access f => ∀ v, M.Accessed x (f v d).2 d (f v d).1
  | .ret => True

structure Sound : Prop where
  locked : ∀ x, M.Locked code x
  entry : ∀ x, M.entry x = true → M.inside x = false ∧ M.bad x = false ∧ (∀ d, M.own x d) ∧
    ∀ z, M.apart x z
  symm : ∀ x z, M.apart x z → M.apart z x
  owes : ∀ ch x, M.owes ch x → M.inside x = true
  checked : ∀ x d, M.bad x = false → M.inv d → M.own x d → (M.inside x = true → M.pre x d) →
    M.Checked code x d

def locks (x : L) (l : List (Lock n Unit)) : Prop := l = if M.inside x then [.client ()] else []

variable {M code}

theorem Sound.compat (h : M.Sound code) : Compat code (M.locks : L → List (Lock n Unit) → Prop) := by
  have hl : ∀ x, _ := h.locked
  refine ⟨fun x lk k l hcode hx => ?_, fun x lk k l hcode hx => ?_, fun x ch lk k hcode _ => ?_,
    fun x ch k l hcode hx => ?_, fun x k b l hcode hx => ?_, fun x f v d l hcode hx => ?_⟩
  · have hin := hl x
    rw [Locked, hcode] at hin
    rw [locks, hin.1] at hx
    rw [locks, hin.2, hx]
    rfl
  · have hin := hl x
    rw [Locked, hcode] at hin
    rw [locks, hin.1] at hx
    rw [locks, hin.2, hx]
    exact List.erase_cons_head ..
  · have hin := hl x
    rw [Locked, hcode] at hin
    rw [locks, hin.2.1]
    rfl
  · have hin := hl x
    rw [Locked, hcode] at hin
    rw [locks, hin.1] at hx
    rw [locks, hin.2, hx]
  · have hin := hl x
    rw [Locked, hcode] at hin
    rw [locks] at hx ⊢
    rw [hin b, hx]
  · have hin := hl x
    rw [Locked, hcode] at hin
    rw [locks] at hx ⊢
    rw [hin v d, hx]

end Monitor

def current : List (Frame n Unit γ L) → Option L
  | .client x :: _ => some x
  | .clientKilled x :: _ => some x
  | .wakeup _ _ :: .client x :: _ => some x
  | _ => none

namespace Monitor

variable (M : Monitor γ L D)

def Waker (rest : List (Frame n Unit γ L)) : Prop :=
  ∃ k r, rest = .client k :: r ∧ M.inside k = true

/-- The stack `stk` is that of a CPU that will wake the sleepers on `ch`, or does so. -/
def Owing (ch : γ) (stk : List (Frame n Unit γ L)) : Prop :=
  (∃ x, current stk = some x ∧ M.owes ch x) ∨
    ∃ a rest, stk = .wakeup (some (.client ch)) a :: rest ∧ M.Waker rest

structure Holds (s : Sys n κ Unit γ L D) : Prop where
  data : M.inv s.data
  each : ∀ y x, x ∈ positions (s.stack y) →
    M.bad x = false ∧ M.own x s.data ∧ (M.sleeps x = true → ∃ p, y = .proc p)
  nested : ∀ y, (positions (s.stack y)).Pairwise M.apart
  apart : ∀ y y' x x', y ≠ y' → x ∈ positions (s.stack y) → x' ∈ positions (s.stack y') → M.apart x x'
  pre : ∀ c x, current (s.stack (s.thread c)) = some x → M.inside x = true → M.pre x s.data
  resumes : ∀ y ch lk a k r, .sleep ch lk a :: .client k :: r <:+ s.stack y →
    ∀ d, M.inv d → M.own k d → M.pre k d
  asleep : ∀ c ch lk a rest, s.stack (s.thread c) = .sleep (.client ch) lk a :: rest →
    a = .acquire ∨ a = .release → ¬ M.ready ch s.data
  swept : ∀ ch, Swept s (.client ch) M.Waker
  owed : ∀ ch q, Committed s (.client ch) q → M.ready ch s.data →
    ∃ c, M.Owing ch (s.stack (s.thread c))

/-- The calls are made at the positions meant for it, from interrupts only if they do not sleep, and
none takes a bad position. -/
def Allows (code : L → Instr Unit γ L D X) (s : Sys n κ Unit γ L D) : κ × Op L X → Prop
  | (_, .syscall x) => M.entry x = true
  | (_, .intr x) => M.entry x = true ∧ M.sleeps x = false
  | (c, .go _) =>
    match s.stack (s.thread c), s.cur c with
    | .clientKilled x :: _, some p =>
      match code x with
      | .killed k => M.bad (k (s.proc p).killed) = false
      | _ => True
    | _, _ => True
  | _ => True

end Monitor

end Xv6.Threads
