import Xv6.BufferCoherence
import Xv6.Lib.Words

namespace Xv6.LogCommit

open Xv6.Lib Xv6.Lib.Words Xv6.BufferCache Function

/-- `n` as the header block of the log stores it: a signed 32-bit word at offset 0. -/
def headN (b : Block) : Int :=
  if getLE b 0 4 < 2 ^ 31 then getLE b 0 4 else getLE b 0 4 - 2 ^ 32

def headBlock (b : Block) (i : Nat) : Nat := getLE b (4 + 4 * i) 4

def putBlocks (block : Nat → Nat) (b : Block) : Nat → Block
  | 0 => b
  | i + 1 => putLE (putBlocks block b i) (4 + 4 * i) (block i) 4

def putHead (lh : LogHeader) (b : Block) : Block :=
  putBlocks lh.block (putLE b 0 (lh.n % 2 ^ 32).toNat 4) lh.n.toNat

def setData (i : Nat) (x : Block) : K PUnit :=
  modify fun s => { s with buf := update s.buf i { s.buf i with data := x } }

def installTrans (recovering : Bool) : K PUnit := do
  let s ← get
  (List.range s.log.lh.n.toNat).forM fun tail => do
    let lbuf ← bread s.log.dev (s.log.start + tail + 1)
    let dbuf ← bread s.log.dev (s.log.lh.block tail)
    let t ← get
    setData dbuf (t.buf lbuf).data
    bwrite dbuf
    (if recovering then pure ⟨⟩ else bunpin dbuf)
    brelse lbuf
    brelse dbuf

def readHead : K PUnit := do
  let s ← get
  let buf ← bread s.log.dev s.log.start
  let t ← get
  let lh := (t.buf buf).data
  modify fun s => { s with log := { s.log with lh :=
    ⟨headN lh, fun i => if (i : Int) < headN lh then headBlock lh i else s.log.lh.block i⟩ } }
  brelse buf

def writeHead : K PUnit := do
  let s ← get
  let buf ← bread s.log.dev s.log.start
  let t ← get
  setData buf (putHead s.log.lh (t.buf buf).data)
  bwrite buf
  brelse buf

def clearHead : K PUnit :=
  modify fun s => { s with log := { s.log with lh := { s.log.lh with n := 0 } } }

def recoverFromLog : K PUnit := do
  readHead
  installTrans true
  clearHead
  writeHead

def writeLog : K PUnit := do
  let s ← get
  (List.range s.log.lh.n.toNat).forM fun tail => do
    let toBuf ← bread s.log.dev (s.log.start + tail + 1)
    let fromBuf ← bread s.log.dev (s.log.lh.block tail)
    let t ← get
    setData toBuf (t.buf fromBuf).data
    bwrite toBuf
    brelse fromBuf
    brelse toBuf

def commit : K PUnit := do
  let s ← get
  if s.log.lh.n > 0 then
    writeLog
    writeHead
    installTrans false
    clearHead
    writeHead
  else pure ⟨⟩

theorem getLE_putBlocks (block : Nat → Nat) (b : Block) (n off w : Nat)
    (h : off + w ≤ 4 ∨ 4 + 4 * n ≤ off) : getLE (putBlocks block b n) off w = getLE b off w := by
  induction n with
  | zero => rfl
  | succ n ih =>
    rw [putBlocks, getLE_putLE_apart _ _ _ _ _ _ (by omega), ih (by omega)]

theorem headBlock_putBlocks (block : Nat → Nat) (b : Block) (n i : Nat) (hi : i < n)
    (hb : block i < 2 ^ 32) : headBlock (putBlocks block b n) i = block i := by
  induction n with
  | zero => omega
  | succ n ih =>
    unfold headBlock at ih ⊢
    obtain rfl | hin := eq_or_ne i n
    · exact getLE_putLE _ _ _ 4 (by simpa using hb)
    · rw [putBlocks, getLE_putLE_apart _ _ _ _ _ _ (by omega), ih (by omega)]

theorem headN_putHead (lh : LogHeader) (b : Block) (h0 : 0 ≤ lh.n) (h1 : lh.n < 2 ^ 31) :
    headN (putHead lh b) = lh.n := by
  have hw : getLE (putHead lh b) 0 4 = (lh.n % 2 ^ 32).toNat := by
    rw [putHead, getLE_putBlocks _ _ _ _ _ (by omega), getLE_putLE _ _ _ 4 (by omega)]
  rw [headN, hw, if_pos (by omega)]
  omega

theorem headBlock_putHead (lh : LogHeader) (b : Block) (i : Nat) (hi : (i : Int) < lh.n)
    (hb : lh.block i < 2 ^ 32) : headBlock (putHead lh b) i = lh.block i :=
  headBlock_putBlocks _ _ _ _ (by omega) hb

end Xv6.LogCommit
