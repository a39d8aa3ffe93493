import Xv6.MonitorSteps
import Xv6.Lib.Ring

namespace Xv6.Pipe

open Xv6.Lib Xv6.Threads Function

def pipeSize : Nat := 512

/-- The addresses `&pi->nread` and `&pi->nwrite`, on which readers and writers sleep. -/
inductive Addr where
  | nread
  | nwrite
  deriving DecidableEq

structure Data where
  data : Nat → UInt8
  nread : Nat
  nwrite : Nat
  readopen : Bool
  writeopen : Bool

/-- A byte put in by `pipewrite`: by which call, as which of its bytes, after how many sleeps. -/
structure Entry where
  byte : UInt8
  call : Nat
  index : Nat
  slept : Nat
  deriving DecidableEq

/-- The pipe with a record of the bytes put in and taken out; `calls` numbers the calls of
`pipewrite`. -/
structure State extends Data where
  put : List Entry
  taken : List UInt8
  calls : Nat

def State.alloc (data : Nat → UInt8) : State where
  data := data
  nread := 0
  nwrite := 0
  readopen := true
  writeopen := true
  put := []
  taken := []
  calls := 0

def State.full (d : State) : Prop := d.nwrite = (d.nread + pipeSize) % 2 ^ 32

def State.empty (d : State) : Prop := d.nread = d.nwrite

instance (d : State) : Decidable d.full := inferInstanceAs (Decidable (_ = _))

instance (d : State) : Decidable d.empty := inferInstanceAs (Decidable (_ = _))

/-- The locals of `pipewrite`, with its number, how often it has slept, and whether it has put bytes in
since its last `wakeup`. -/
structure Writer where
  n : Int
  i : Nat
  call : Nat
  slept : Nat
  dirty : Bool
  deriving DecidableEq

def State.write (d : State) (w : Writer) (ch : UInt8) : State :=
  { d with
    data := update d.data (d.nwrite % pipeSize) ch
    nwrite := (d.nwrite + 1) % 2 ^ 32
    put := d.put ++ [{ byte := ch, call := w.call, index := w.i, slept := w.slept }] }

def State.read (d : State) : State :=
  { d with
    nread := (d.nread + 1) % 2 ^ 32
    taken := d.taken ++ [d.data (d.nread % pipeSize)] }

def State.close (d : State) (writable : Bool) : State :=
  if writable then { d with writeopen := false } else { d with readopen := false }

/-- The positions in `pipewrite`, `piperead` and `pipeclose`. `writeBegin` gives the call its number and
`writeSlept` counts its sleeps. -/
inductive Position where
  | writeCall (n : Int)
  | writeBegin (n : Int)
  | writeHead (w : Writer)
  | writeKilled (w : Writer)
  | writeTry (w : Writer)
  | writeWake (w : Writer)
  | writeSleep (w : Writer)
  | writeSlept (w : Writer)
  | writeEnd (w : Writer)
  | writeRelease (r : Int) (dirty : Bool)
  | readCall (n : Int)
  | readHead (n : Int)
  | readKilled (n : Int)
  | readSleep (n : Int)
  | readCopy (n : Int) (i : Nat)
  | readEnd (r : Int)
  | readRelease (r : Int)
  | closeCall (writable : Bool)
  | closeSet (writable : Bool)
  | closeWake (writable : Bool)
  | closeRelease
  | done (r : Int)
  deriving DecidableEq

/-- The byte that `copyin` finds, or whether `copyout` succeeds, is not the pipe's business. -/
def code : Position → Instr Unit Addr Position State (Option UInt8)
  | .writeCall n => .acquire () (.writeBegin n)
  | .writeBegin n => .access fun _ d => ({ d with calls := d.calls + 1 },
      .writeHead { n := n, i := 0, call := d.calls, slept := 0, dirty := false })
  | .writeHead w => .access fun _ d => (d,
      if w.i < w.n then if d.readopen = false then .writeRelease (-1) w.dirty else .writeKilled w
      else .writeEnd w)
  | .writeKilled w => .killed fun b => if b then .writeRelease (-1) w.dirty else .writeTry w
  | .writeTry w => .access fun v d =>
      if d.full then (d, .writeWake w)
      else
        match v with
        | none => (d, .writeEnd w)
        | some ch => (d.write w ch, .writeHead { w with i := w.i + 1, dirty := true })
  | .writeWake w => .wakeup .nread (.writeSleep { w with dirty := false })
  | .writeSleep w => .sleep .nwrite () (.writeSlept w)
  | .writeSlept w => .access fun _ d => (d, .writeHead { w with slept := w.slept + 1 })
  | .writeEnd w => .wakeup .nread (.writeRelease w.i false)
  | .writeRelease r _ => .release () (.done r)
  | .readCall n => .acquire () (.readHead n)
  | .readHead n => .access fun _ d => (d,
      if d.empty ∧ d.writeopen = true then .readKilled n else .readCopy n 0)
  | .readKilled n => .killed fun b => if b then .readRelease (-1) else .readSleep n
  | .readSleep n => .sleep .nread () (.readHead n)
  | .readCopy n i => .access fun v d =>
      if i < n then
        if d.empty then (d, .readEnd i)
        else (d.read, if v.isNone then .readEnd i else .readCopy n (i + 1))
      else (d, .readEnd i)
  | .readEnd r => .wakeup .nwrite (.readRelease r)
  | .readRelease r => .release () (.done r)
  | .closeCall writable => .acquire () (.closeSet writable)
  | .closeSet writable => .access fun _ d => (d.close writable, .closeWake writable)
  | .closeWake writable => .wakeup (if writable then .nread else .nwrite) .closeRelease
  | .closeRelease => .release () (.done 0)
  | .done _ => .ret

def Position.isCall : Position → Bool
  | .writeCall _ => true
  | .readCall _ => true
  | .closeCall _ => true
  | _ => false

def Position.inside : Position → Bool
  | .done _ => false
  | x => !x.isCall

def Calls {κ : Type} : κ × Op Position (Option UInt8) → Prop
  | (_, .syscall x) => x.isCall = true
  | (_, .intr _) => False
  | _ => True

instance {κ : Type} (a : κ × Op Position (Option UInt8)) : Decidable (Calls a) := by
  unfold Calls
  split <;> infer_instance

section

variable {M : Monitor Addr Position State}

theorem code_locked (hin : M.inside = Position.inside) (hsl : ∀ x, M.sleeps x = true) (x : Position) :
    M.Locked code x := by
  unfold Monitor.Locked
  rw [hin]
  cases x with
  | writeHead w | readHead n | readCopy n i =>
    intro v d
    dsimp only
    split_ifs <;> rfl
  | writeKilled w | readKilled n => exact fun b => by cases b <;> rfl
  | writeTry w =>
    intro v d
    dsimp only
    split_ifs
    · rfl
    · cases v <;> rfl
  | writeSleep w | readSleep n => exact ⟨rfl, rfl, hsl _⟩
  | writeBegin n | writeSlept w | closeSet writable => exact fun _ _ => rfl
  | done r => rfl
  | _ => exact ⟨rfl, rfl⟩

end

end Xv6.Pipe
