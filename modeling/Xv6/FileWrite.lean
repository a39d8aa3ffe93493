import Xv6.BlockReads
import Xv6.Lib.Zoom
import Xv6.WriteLog

namespace Xv6.FileWrite

open Xv6.Lib
open Xv6.Blocks (Vol V Src ilock writei maxfile wraps_iff)
open Xv6.Inodes (bsize)
open Xv6.Mkfs (bpb)
open Xv6.WriteLog (Superblock writei_logs)

def maxChunk : Nat := (maxOpBlocks - 1 - 1 - 2) / 2 * bsize

/-- A call of `writei`: the index of its first byte in the buffer, the offset in the file, the length
and the result. -/
structure Chunk where
  src : Nat
  off : UInt32
  len : Nat
  ret : Int

/-- The file system, and a file with its offset and the calls of `writei` that were made for it. -/
structure Out where
  vol : Vol
  off : UInt32
  chunks : List Chunk

abbrev W := EStateM String Out

def liftVol {α : Type} (m : V α) : W α := zoom Out.vol (fun v s => { s with vol := v }) m

/-- The part of the loop of `filewrite` that has the inode locked. -/
def writeChunk (ip : Nat) (pages : Nat → Option (Nat → UInt8)) (addr i n1 : Nat) : W Int := do
  liftVol (ilock ip)
  let s ← get
  let r ← liftVol (writei ip (.user pages (addr + i)) s.off (.ofNat n1))
  modify fun t => { t with
    off := if 0 < r then s.off + .ofNat r.toNat else s.off
    chunks := t.chunks ++ [⟨i, s.off, n1, r⟩] }
  return r

/-- The loop of `filewrite`, with the final `i`. Each round that goes on has written a byte, so `n`
rounds are enough. -/
def writeRounds (ip : Nat) (pages : Nat → Option (Nat → UInt8)) (addr : Nat) (n : Int) : Nat → Nat → W Nat
  | 0, i => return i
  | rounds + 1, i =>
    if i < n then do
      let n1 := min (n - i).toNat maxChunk
      let r ← writeChunk ip pages addr i n1
      if r ≠ n1 then
        return i
      else
        writeRounds ip pages addr n rounds (i + n1)
    else
      return i

def filewrite (ip : Nat) (pages : Nat → Option (Nat → UInt8)) (addr : Nat) (n : Int32) : W Int := do
  let i ← writeRounds ip pages addr n.toInt n.toInt.toNat 0
  return if i = n.toInt then n.toInt else -1

variable {s t : Out} {ip addr : Nat} {pages : Nat → Option (Nat → UInt8)}

theorem writei_inside (v : Vol) (i : Nat) (src : Src) (off n : UInt32) :
    Returns (writei i src off n) v fun r _ => 0 ≤ r → off.toNat + n.toNat ≤ maxfile * bsize := by
  have hoff := off.toNat_lt
  have hn := n.toNat_lt
  unfold writei Blocks.writeiBy
  apply Ensures.bind_get
  split
  · exact .pure nofun
  · next hfirst =>
    split
    · exact .pure nofun
    · next hmax =>
      rw [wraps_iff] at hfirst
      rw [UInt32.toNat_add] at hmax
      exact (Ensures.any _ _).post fun _ _ _ _ => by omega

theorem writeChunk_returns (i : Nat) {n1 : Nat} (hmax : n1 ≤ maxChunk) :
    Returns (writeChunk ip pages addr i n1) s fun r t =>
      t.chunks = s.chunks ++ [⟨i, s.off, n1, r⟩] ∧ (r = n1 → t.off.toNat = s.off.toNat + n1) := by
  have hn1 : (UInt32.ofNat n1).toNat = n1 := UInt32.toNat_ofNat_of_lt' (lt_of_le_of_lt hmax (by decide))
  unfold writeChunk
  apply Ensures.bind
  apply Ensures.zoom
  refine (Ensures.any _ _).post fun _ v _ => ?_
  apply Ensures.bind_get
  apply Ensures.bind
  apply Ensures.zoom
  refine (writei_inside _ _ _ _ _).post fun r w hr => ?_
  apply Ensures.bind_modify
  refine .pure ⟨rfl, fun hall => ?_⟩
  have hlim : maxfile * bsize < 2 ^ 32 := by decide
  have hin := hr (by omega)
  rw [hn1] at hin
  dsimp only at hin ⊢
  subst hall
  rw [Int.toNat_natCast]
  split
  · rw [UInt32.toNat_add, hn1, Nat.mod_eq_of_lt (by omega)]
  · omega

/-- The calls of `writei` follow each other from the `i`-th byte on, and all but the last are complete. -/
def Tiles (n : Nat) : Nat → Nat → List Chunk → Prop
  | _, _, [] => True
  | i, off, c :: cs => c.src = i ∧ c.off.toNat = off ∧ 0 < c.len ∧ c.len ≤ maxChunk ∧ i + c.len ≤ n ∧
      (cs ≠ [] → c.ret = c.len) ∧ Tiles n (i + c.len) (off + c.len) cs

def Complete (len : Nat) (cs : List Chunk) : Prop := (cs.map Chunk.len).sum = len ∧ ∀ c ∈ cs, c.ret = c.len

def Broken (cs : List Chunk) : Prop := ∃ c, cs.getLast? = some c ∧ c.ret ≠ c.len

theorem Complete.cons {c : Chunk} {cs : List Chunk} {len : Nat} (h : Complete len cs) (hc : c.ret = c.len) :
    Complete (c.len + len) (c :: cs) := by
  refine ⟨?_, fun d hd => ?_⟩
  · rw [List.map_cons, List.sum_cons, h.1]
  · rcases List.mem_cons.mp hd with rfl | hd
    · exact hc
    · exact h.2 d hd

theorem Broken.cons {cs : List Chunk} (h : Broken cs) (c : Chunk) : Broken (c :: cs) := by
  obtain ⟨d, hd, hne⟩ := h
  have hnil : cs ≠ [] := by
    rintro rfl
    cases hd
  exact ⟨d, (List.getLast?_cons_of_ne_nil hnil).trans hd, hne⟩

def Covers (n i j : Nat) (s t : Out) : Prop :=
  ∃ cs, t.chunks = s.chunks ++ cs ∧ Tiles n i s.off.toNat cs ∧
    ((j = n ∧ Complete (n - i) cs) ∨ (j < n ∧ Broken cs))

theorem Covers.done (n : Nat) (s : Out) : Covers n n n s s :=
  ⟨[], (List.append_nil _).symm, trivial, .inl ⟨rfl, (Nat.sub_self n).symm, nofun⟩⟩

theorem writeRounds_covers {n : Int} (rounds i : Nat) (hi : i ≤ n.toNat) (hr : n.toNat - i ≤ rounds) :
    Returns (writeRounds ip pages addr n rounds i) s fun j t => Covers n.toNat i j s t := by
  induction rounds generalizing i s with
  | zero =>
    obtain rfl : i = n.toNat := by omega
    exact .pure (.done _ s)
  | succ rounds ih =>
    rw [writeRounds]
    split
    · next hlt =>
      obtain ⟨n1, hn1⟩ : ∃ n1, n1 = min (n - i).toNat maxChunk := ⟨_, rfl⟩
      have hmax : 0 < maxChunk := by decide
      have hpos : 0 < n1 := by omega
      have hle : n1 ≤ maxChunk := by omega
      have hin : i + n1 ≤ n.toNat := by omega
      rw [← hn1]
      refine (writeChunk_returns i hle).seq ?_
      rintro r t ⟨hchunks, hoff⟩
      split
      · next hne =>
        refine .pure ⟨_, hchunks, ?_, .inr ⟨by omega, _, rfl, hne⟩⟩
        exact ⟨rfl, rfl, hpos, hle, hin, fun h => absurd rfl h, trivial⟩
      · next hall =>
        rw [not_not] at hall
        refine (ih (i + n1) hin (by omega)).post ?_
        rintro j u ⟨cs, hcs, htiles, hcases⟩
        rw [hoff hall] at htiles
        refine ⟨⟨i, s.off, n1, r⟩ :: cs, ?_, ⟨rfl, rfl, hpos, hle, hin, fun _ => hall, htiles⟩, ?_⟩
        · rw [hcs, hchunks, List.append_assoc, List.singleton_append]
        · refine hcases.imp (fun h => ⟨h.1, ?_⟩) fun h => ⟨h.1, h.2.cons _⟩
          have hlen : n.toNat - i = n1 + (n.toNat - (i + n1)) := by omega
          rw [hlen]
          exact h.2.cons hall
    · obtain rfl : i = n.toNat := by omega
      exact .pure (.done _ s)

def Issues (n r : Int) (s t : Out) : Prop :=
  ∃ cs, t.chunks = s.chunks ++ cs ∧ Tiles n.toNat 0 s.off.toNat cs ∧
    ((r = n ∧ 0 ≤ n ∧ Complete n.toNat cs) ∨ (r = -1 ∧ n < 0 ∧ cs = []) ∨ (r = -1 ∧ Broken cs))

end Xv6.FileWrite
