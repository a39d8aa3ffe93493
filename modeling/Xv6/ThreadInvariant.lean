import Xv6.Threads
import Mathlib.Data.List.Nodup

namespace Xv6.Threads

variable {n : Nat} {κ Λ γ L D X : Type}

section Positions

/-- The spinlocks that a thread holds at each position, the one taken last first. -/
def YieldAt.locks (p : Fin n) : YieldAt → List (Lock n Λ)
  | .acquire => []
  | .sched => [.proc p]
  | .release => [.proc p]

def SleepAt.locks (p : Fin n) (lk : Lock n Λ) : SleepAt → List (Lock n Λ)
  | .acquire => [lk]
  | .release => [.proc p, lk]
  | .sched => [.proc p]
  | .tidy => [.proc p]
  | .reacquire => []

def ScanAt.locks : ScanAt n → List (Lock n Λ)
  | .next _ => []
  | .locked q => [.proc q]

def ForkAt.locks : ForkAt n → List (Lock n Λ)
  | .scan a => a.locks
  | .copy q => [.proc q]
  | .waitLock _ => []
  | .parent _ => [.wait]
  | .lock _ => []
  | .run q => [.proc q]

def ExitAt.locks (p : Fin n) : ExitAt → List (Lock n Λ)
  | .waitLock => []
  | .reparent _ => [.wait]
  | .wake => [.wait]
  | .lock => [.wait]
  | .zombie => [.proc p, .wait]
  | .sched => [.proc p]
  | .gone => [.proc p]

def WaitAt.locks (p : Fin n) : WaitAt n → List (Lock n Λ)
  | .lock => []
  | .scan _ _ => [.wait]
  | .locked q => [.proc q, .wait]
  | .killed => [.proc p, .wait]
  | .done _ => [.wait]

def SchedAt.locks : SchedAt n → List (Lock n Λ)
  | .scan a => a.locks
  | .ran q => [.proc q]

/-- What a thread with frame `f` on top may hold: the thread of process `p`, or a scheduler. For
other kernel code, `A` tells the locks it may hold at each of its positions. -/
def Frame.Holds (A : L → List (Lock n Λ) → Prop) :
    Option (Fin n) → List (Lock n Λ) → Frame n Λ γ L → Prop
  | _, l, .client x => A x l
  | _, _, .wakeup _ (.next _) => True
  | _, l, .wakeup _ (.locked q) => l.head? = some (.proc q)
  | none, l, .scheduler a => l = a.locks
  | some p, l, .clientKilled x => l.head? = some (.proc p) ∧ A x l.tail
  | some p, l, .yield a => l = a.locks p
  | some p, l, .sleep _ lk a => l = a.locks p lk
  | some _, l, .kkill _ a => l = a.locks
  | some p, l, .setkilled locked => l = if locked then [.proc p] else []
  | some p, l, .forkret => l = [.proc p]
  | some _, l, .kfork a => l = a.locks
  | some _, _, .kexit _ .gone => False
  | some p, l, .kexit _ a => l = a.locks p
  | some p, l, .kwait _ a => l = a.locks p
  | some _, l, .user => l = []
  | _, _, _ => False

/-- What the frames under `f` find held when `f` returns. -/
def Frame.below (l : List (Lock n Λ)) : Frame n Λ γ L → List (Lock n Λ)
  | .sleep _ lk _ => [lk]
  | .wakeup _ (.next _) => l
  | .wakeup _ (.locked _) => l.tail
  | _ => []

def ranOf : List (Frame n Λ γ L) → Option (Fin n)
  | [.scheduler (.ran q)] => some q
  | _ => none

def exiting : List (Frame n Λ γ L) → Bool
  | .kexit _ .sched :: _ => true
  | _ => false

/-- Where `wakeup` and `sleep` are called from, with what channel and lock. -/
def Frame.Over (p : Option (Fin n)) (rest : List (Frame n Λ γ L)) : Frame n Λ γ L → Prop
  | .wakeup ch _ =>
    match rest with
    | .client _ :: _ => ∃ ch', ch = some (.client ch')
    | .kexit _ (.reparent _) :: _ => True
    | .kexit _ .lock :: _ => True
    | _ => False
  | .sleep ch lk _ =>
    match rest with
    | .client _ :: _ => ∃ ch' lk', ch = .client ch' ∧ lk = .client lk'
    | .kwait _ (.scan 0 false) :: _ => ∃ q, p = some q ∧ ch = .proc q ∧ lk = .wait
    | _ => False
  | _ => True

/-- The stack of a thread goes with the locks it holds. -/
def Fits (A : L → List (Lock n Λ) → Prop) (p : Option (Fin n)) :
    List (Lock n Λ) → List (Frame n Λ γ L) → Prop
  | _, [] => False
  | l, f :: rest => f.Holds A p l ∧
    match f with
    | .user => rest = []
    | .scheduler _ => rest = []
    | .forkret => rest = [.user]
    | .kkill _ _ => rest = [.user]
    | .setkilled _ => rest = [.user]
    | .kfork _ => rest = [.user]
    | .kexit _ _ => rest = [.user]
    | .kwait _ _ => rest = [.user]
    | f => ranOf rest = none ∧ exiting rest = false ∧ f.Over p rest ∧ Fits A p (f.below l) rest

/-- The new process of a `kfork` that has not yet made it runnable. -/
def Frame.child : Frame n Λ γ L → Option (Fin n)
  | .kfork (.copy q) => some q
  | .kfork (.waitLock q) => some q
  | .kfork (.parent q) => some q
  | .kfork (.lock q) => some q
  | .kfork (.run q) => some q
  | _ => none

/-- Where a process goes on when the scheduler switches to it. -/
def Frame.resumes : Frame n Λ γ L → Bool
  | .yield .release => true
  | .sleep _ _ .tidy => true
  | .forkret => true
  | _ => false

/-- The stack of a process that is on no CPU. -/
def ParkedAs (A : L → List (Lock n Λ) → Prop) (p : Fin n) (x : Proc n γ)
    (stk : List (Frame n Λ γ L)) : Prop :=
  match x.state with
  | .unused => True
  | .used => stk = [.forkret, .user]
  | .sleeping => ∃ ch lk rest, stk = .sleep ch lk .tidy :: rest ∧ x.chan = some ch ∧
      Fits A (some p) [.proc p] stk
  | .runnable => ∃ f rest, stk = f :: rest ∧ f.resumes = true ∧ Fits A (some p) [.proc p] stk
  | .running => False
  | .zombie => ∃ status rest, stk = .kexit status .gone :: rest

end Positions

structure Holding (s : Sys n κ Λ γ L D) (c : κ) (l : List (Lock n Λ)) : Prop where
  mem : ∀ k, s.lock k = some c ↔ k ∈ l
  nodup : l.Nodup
  noff : s.noff c = l.length

structure Inv (A : L → List (Lock n Λ) → Prop) (s : Sys n κ Λ γ L D) : Prop where
  cpu : ∀ c, ∃ l, Holding s c l ∧ Fits A (s.cur c) l (s.stack (s.thread c))
  ran : ∀ c, s.cproc c = ranOf (s.stack (.sched c))
  cur : ∀ c p, s.cur c = some p → s.cproc c = some p
  once : ∀ c c' p, s.cproc c = some p → s.cproc c' = some p → c = c'
  live : ∀ c p, s.cproc c = some p → (s.proc p).state ≠ .unused ∧ (s.proc p).state ≠ .used
  active : ∀ c p, s.cur c = some p →
    (s.proc p).state = if exiting (s.stack (.proc p)) then .zombie else .running
  parked : ∀ p, (∀ c, s.cur c ≠ some p) → ParkedAs A p (s.proc p) (s.stack (.proc p))
  child : ∀ p q f, f ∈ s.stack (.proc p) → f.child = some q → (s.proc q).state = .used
  alone : ∀ p p' q f f', f ∈ s.stack (.proc p) → f' ∈ s.stack (.proc p') → f.child = some q →
    f'.child = some q → p = p'

section Holding

variable [DecidableEq κ] [DecidableEq Λ] {s : Sys n κ Λ γ L D} {c c' : κ} {k : Lock n Λ}
  {l : List (Lock n Λ)}

theorem lock_take {k' : Lock n Λ} (hk : s.lock k = none) (hc : c' ≠ c) :
    (s.take c k).lock k' = some c' ↔ s.lock k' = some c' := by
  by_cases hkk : k' = k
  · simp [Sys.take, hkk, hk, Ne.symm hc]
  · simp [Sys.take, hkk]

theorem lock_drop {k' : Lock n Λ} (hk : s.lock k = some c) (hc : c' ≠ c) :
    (s.drop c k).lock k' = some c' ↔ s.lock k' = some c' := by
  by_cases hkk : k' = k
  · simp [Sys.drop, hkk, hk, Ne.symm hc]
  · simp [Sys.drop, hkk]

theorem Holding.take (h : Holding s c l) (hk : s.lock k = none) : Holding (s.take c k) c (k :: l) := by
  have hmem : k ∉ l := fun hm => by simp [(h.mem k).mpr hm] at hk
  refine ⟨fun k' => ?_, List.nodup_cons.mpr ⟨hmem, h.nodup⟩, ?_⟩
  · by_cases hkk : k' = k
    · simp [Sys.take, hkk]
    · simp [Sys.take, hkk, h.mem]
  · simp [Sys.take, h.noff]

theorem Holding.take_of_ne (h : Holding s c' l) (hk : s.lock k = none) (hc : c' ≠ c) :
    Holding (s.take c k) c' l :=
  ⟨fun k' => (lock_take hk hc).trans (h.mem k'), h.nodup, by simp [Sys.take, hc, h.noff]⟩

theorem Holding.drop (h : Holding s c l) (hk : s.lock k = some c) :
    Holding (s.drop c k) c (l.erase k) := by
  have hmem : k ∈ l := (h.mem k).mp hk
  refine ⟨fun k' => ?_, h.nodup.erase k, ?_⟩
  · by_cases hkk : k' = k
    · simp [Sys.drop, hkk, h.nodup.mem_erase_iff]
    · simp [Sys.drop, hkk, h.mem, h.nodup.mem_erase_iff]
  · simp [Sys.drop, h.noff, List.length_erase_of_mem hmem]

theorem Holding.drop_of_ne (h : Holding s c' l) (hk : s.lock k = some c) (hc : c' ≠ c) :
    Holding (s.drop c k) c' l :=
  ⟨fun k' => (lock_drop hk hc).trans (h.mem k'), h.nodup, by simp [Sys.drop, hc, h.noff]⟩

end Holding

end Xv6.Threads
