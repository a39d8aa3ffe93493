import Xv6.Lib.Ensures
import Xv6.Lib.Words
import Xv6.Param

namespace Xv6.Vm

open Xv6.Lib.Words Function

def maxva : Nat := 2 ^ 38

def trampolineVa : Nat := maxva - pgsize
def trapframeVa : Nat := trampolineVa - pgsize

def kernbase : Nat := 0x80000000
def phystop : Nat := kernbase + 128 * 1024 * 1024

def pgRoundUp (sz : Nat) : Nat := (sz + pgsize - 1) % 2 ^ 64 / pgsize * pgsize

def pteV : Nat := 1
def pteR : Nat := 2
def pteW : Nat := 4
def pteX : Nat := 8
def pteU : Nat := 16

def pa2pte (pa : Nat) : Nat := (pa >>> 12) <<< 10

def pte2pa (pte : Nat) : Nat := (pte >>> 10) <<< 12 % 2 ^ 64

def pteFlags (pte : Nat) : Nat := pte &&& 0x3ff

def px (level va : Nat) : Fin 512 :=
  ⟨(va >>> (12 + 9 * level)) &&& 0x1ff, Nat.lt_of_le_of_lt Nat.and_le_right (by decide)⟩

def has (pte flags : Nat) : Bool := pte &&& flags != 0

/-- Where the linker has put the end of the kernel and the page with the trampoline code. -/
class Layout where
  kend : Nat
  trampoline : Nat
  trampoline_aligned : trampoline % pgsize = 0
  trampoline_end : trampoline + pgsize ≤ kend

export Layout (kend trampoline)

/-- Physical memory as pages, by the address of their first byte, and the free pages. The head of `deny` tells
that the other processes have all pages when `kalloc` is called next. -/
structure Phys where
  page : Nat → Nat → UInt8
  free : List Nat
  deny : List Bool

namespace Phys

variable (m : Phys) (p : Nat)

/-- The page as an array of 64-bit words. -/
def word (i : Fin 512) : Nat := getLE (m.page p) (8 * i) 8

def setPage (bytes : Nat → UInt8) : Phys := { m with page := update m.page p bytes }

def setWord (i : Fin 512) (v : Nat) : Phys := m.setPage p (putLE (m.page p) (8 * i) v 8)

def fill (c : UInt8) : Phys := m.setPage p fun _ => c

/-- `memmove(p + off, bytes, n)` for the `n` bytes of the list. -/
def store (off : Nat) (bytes : List UInt8) : Phys :=
  m.setPage p fun j => if off ≤ j ∧ j < off + bytes.length then bytes.getD (j - off) 0 else m.page p j

def load (off n : Nat) : List UInt8 := (List.range n).map fun j => m.page p (off + j)

end Phys

abbrev M := EStateM String Phys

/-- The page, or `none` for the null pointer. -/
def kalloc : M (Option Nat) := do
  let m ← get
  if m.deny.headD false then
    set { m with deny := m.deny.tail }
    return none
  else
    match m.free with
    | [] =>
      set { m with deny := m.deny.tail }
      return none
    | p :: free =>
      set ({ m with free := free, deny := m.deny.tail }.fill p 5)
      return some p

abbrev PtePtr := Nat × Fin 512

/-- One round of the loop of `walk`: the page-table page of the next level. -/
def descend (pagetable : Nat) (i : Fin 512) (alloc : Bool) : M (Option Nat) := do
  let m ← get
  let pte := m.word pagetable i
  if has pte pteV then
    return some (pte2pa pte)
  else if alloc then
    match ← kalloc with
    | none => return none
    | some p =>
      modify fun m => (m.fill p 0).setWord pagetable i (pa2pte p ||| pteV)
      return some p
  else
    return none

def walkLevels (va : Nat) (alloc : Bool) : Nat → Nat → M (Option PtePtr)
  | 0, pagetable => return some (pagetable, px 0 va)
  | level + 1, pagetable => do
    match ← descend pagetable (px (level + 1) va) alloc with
    | none => return none
    | some p => walkLevels va alloc level p

def walk (pagetable va : Nat) (alloc : Bool) : M (Option PtePtr) :=
  if maxva ≤ va then
    throw "walk"
  else
    walkLevels va alloc 2 pagetable

def readPte (pagetable va : Nat) : M (Option (PtePtr × Nat)) := do
  match ← walk pagetable va false with
  | none => return none
  | some ptr =>
    let m ← get
    return some (ptr, m.word ptr.1 ptr.2)

/-- The physical address of a user page, or 0. -/
def walkaddr (pagetable va : Nat) : M Nat := do
  if maxva ≤ va then
    return 0
  else
    match ← readPte pagetable va with
    | none => return 0
    | some (_, pte) =>
      if has pte pteV = false then
        return 0
      else if has pte pteU = false then
        return 0
      else
        return pte2pa pte

/-- The loop of `mappages`; it ends when `a` is the last page, after as many rounds as there are pages. -/
def mapLoop (pagetable perm last : Nat) : Nat → Nat → Nat → M Int
  | 0, _, _ => return 0
  | rounds + 1, a, pa => do
    match ← walk pagetable a true with
    | none => return -1
    | some (t, i) =>
      let m ← get
      if has (m.word t i) pteV then
        throw "mappages: remap"
      set (m.setWord t i (pa2pte pa ||| perm ||| pteV))
      if a = last then
        return 0
      else
        mapLoop pagetable perm last rounds (a + pgsize) ((pa + pgsize) % 2 ^ 64)

def mappages (pagetable va size pa perm : Nat) : M Int :=
  if va % pgsize ≠ 0 then
    throw "mappages: va not aligned"
  else if size % pgsize ≠ 0 then
    throw "mappages: size not aligned"
  else if size = 0 then
    throw "mappages: size"
  else
    mapLoop pagetable perm ((va + size - pgsize) % 2 ^ 64) (size / pgsize) va pa

def uvmcreate : M (Option Nat) := do
  match ← kalloc with
  | none => return none
  | some p =>
    modify fun m => m.fill p 0
    return some p

section

variable [Layout]

def kfree (pa : Nat) : M Unit := do
  if pa % pgsize ≠ 0 ∨ pa < kend ∨ phystop ≤ pa then
    throw "kfree"
  else
    modify fun m => { m.fill pa 1 with free := pa :: m.free }

def unmapPage (pagetable : Nat) (doFree : Bool) (a : Nat) : M Unit := do
  match ← readPte pagetable a with
  | none => return
  | some ((t, i), pte) =>
    if has pte pteV then
      if doFree then
        kfree (pte2pa pte)
      modify fun m => m.setWord t i 0
    else
      return

/-- The loop of `uvmunmap` up to the address `last`. -/
def unmapLoop (pagetable : Nat) (doFree : Bool) (last : Nat) : Nat → Nat → M Unit
  | 0, _ => return
  | rounds + 1, a =>
    if a < last then do
      unmapPage pagetable doFree a
      unmapLoop pagetable doFree last rounds (a + pgsize)
    else
      return

def uvmunmap (pagetable va npages : Nat) (doFree : Bool) : M Unit :=
  if va % pgsize ≠ 0 then
    throw "uvmunmap: not aligned"
  else
    let last := (va + npages * pgsize) % 2 ^ 64
    unmapLoop pagetable doFree last ((last - va + pgsize - 1) / pgsize) va

/-- A number as an `int` that is then widened to 64 bits. -/
def asInt (n : Nat) : Nat := if n % 2 ^ 32 < 2 ^ 31 then n % 2 ^ 32 else n % 2 ^ 32 + (2 ^ 64 - 2 ^ 32)

def uvmdealloc (pagetable oldsz newsz : Nat) : M Nat := do
  if oldsz ≤ newsz then
    return oldsz
  else
    if pgRoundUp newsz < pgRoundUp oldsz then
      uvmunmap pagetable (pgRoundUp newsz) (asInt ((pgRoundUp oldsz - pgRoundUp newsz) / pgsize)) true
    return newsz

def allocLoop (pagetable oldsz newsz xperm : Nat) : Nat → Nat → M Nat
  | 0, _ => return newsz
  | rounds + 1, a =>
    if a < newsz then do
      match ← kalloc with
      | none =>
        discard (uvmdealloc pagetable a oldsz)
        return 0
      | some mem =>
        modify fun m => m.fill mem 0
        if (← mappages pagetable a pgsize mem (pteR ||| pteU ||| xperm)) ≠ 0 then
          kfree mem
          discard (uvmdealloc pagetable a oldsz)
          return 0
        else
          allocLoop pagetable oldsz newsz xperm rounds (a + pgsize)
    else
      return newsz

def uvmalloc (pagetable oldsz newsz xperm : Nat) : M Nat :=
  if newsz < oldsz then
    return oldsz
  else
    let oldsz := pgRoundUp oldsz
    allocLoop pagetable oldsz newsz xperm ((newsz - oldsz + pgsize - 1) / pgsize) oldsz

/-- `freewalk`, on a stack with room for `depth` calls. -/
def freewalk : Nat → Nat → M Unit
  | 0, _ => throw "kernel stack"
  | depth + 1, pagetable => do
    (List.finRange 512).forM fun i => do
      let m ← get
      let pte := m.word pagetable i
      if has pte pteV && !has pte (pteR ||| pteW ||| pteX) then
        freewalk depth (pte2pa pte)
        modify fun m => m.setWord pagetable i 0
      else if has pte pteV then
        throw "freewalk: leaf"
    kfree pagetable

theorem freewalk_rounds (depth r : Nat) : ∃ all : List (Fin 512), (∀ i, i ∈ all) ∧ all.Nodup ∧
    freewalk (depth + 1) r = (do
      all.forM fun i => do
        let m ← get
        let pte := m.word r i
        if has pte pteV && !has pte (pteR ||| pteW ||| pteX) then
          freewalk depth (pte2pa pte)
          modify fun m => m.setWord r i 0
        else if has pte pteV then
          throw "freewalk: leaf"
      kfree r) :=
  ⟨List.finRange 512, List.mem_finRange, List.nodup_finRange 512, rfl⟩

-- the 512 rounds are not to be unfolded
attribute [irreducible] freewalk

/-- More calls of `freewalk` than this do not fit on the page of a kernel stack. -/
def stackDepth : Nat := 32

def uvmfree (pagetable sz : Nat) : M Unit := do
  if 0 < sz then
    uvmunmap pagetable 0 (pgRoundUp sz / pgsize) true
  freewalk stackDepth pagetable

def copyLoop (old new sz : Nat) : Nat → Nat → M Int
  | 0, _ => return 0
  | rounds + 1, i =>
    if i < sz then do
      match ← readPte old i with
      | none => copyLoop old new sz rounds (i + pgsize)
      | some (_, pte) =>
        if has pte pteV = false then
          copyLoop old new sz rounds (i + pgsize)
        else
          match ← kalloc with
          | none =>
            uvmunmap new 0 (i / pgsize) true
            return -1
          | some mem =>
            modify fun m => m.setPage mem (m.page (pte2pa pte))
            if (← mappages new i pgsize mem (pteFlags pte)) ≠ 0 then
              kfree mem
              uvmunmap new 0 (i / pgsize) true
              return -1
            else
              copyLoop old new sz rounds (i + pgsize)
    else
      return 0

def uvmcopy (old new sz : Nat) : M Int := copyLoop old new sz ((sz + pgsize - 1) / pgsize) 0

def ismapped (pagetable va : Nat) : M Bool := do
  match ← readPte pagetable va with
  | none => return false
  | some (_, pte) => return has pte pteV

structure Proc where
  pagetable : Nat
  sz : Nat
  trapframe : Nat

/-- `vmfault` in process `p`; its argument `read` is not used. -/
def vmfault (p : Proc) (pagetable va : Nat) : M Nat := do
  if p.sz ≤ va then
    return 0
  else
    let va := pgRoundDown va
    if ← ismapped pagetable va then
      return 0
    else
      match ← kalloc with
      | none => return 0
      | some mem =>
        modify fun m => m.fill mem 0
        if (← mappages p.pagetable va pgsize mem (pteW ||| pteU ||| pteR)) ≠ 0 then
          kfree mem
          return 0
        else
          return mem

def addInt (sz : Nat) (n : Int) : Nat := ((sz + n) % 2 ^ 64).toNat

/-- `growproc` in process `p`, which it leaves with another size. -/
def growproc (p : Proc) (n : Int) : M (Int × Proc) := do
  if 0 < n then
    let sz ← uvmalloc p.pagetable p.sz (addInt p.sz n) pteW
    if sz = 0 then
      return (-1, p)
    else
      return (0, { p with sz := sz })
  else if n < 0 then
    let sz ← uvmdealloc p.pagetable p.sz (addInt p.sz n)
    return (0, { p with sz := sz })
  else
    return (0, p)

def procPagetable (p : Proc) : M (Option Nat) := do
  match ← uvmcreate with
  | none => return none
  | some pagetable =>
    let r ← mappages pagetable trampolineVa pgsize trampoline (pteR ||| pteX)
    if r < 0 then
      uvmfree pagetable 0
      return none
    else
      let r ← mappages pagetable trapframeVa pgsize p.trapframe (pteR ||| pteW)
      if r < 0 then
        uvmunmap pagetable trampolineVa 1 false
        uvmfree pagetable 0
        return none
      else
        return some pagetable

def procFreepagetable (pagetable sz : Nat) : M Unit := do
  uvmunmap pagetable trampolineVa 1 false
  uvmunmap pagetable trapframeVa 1 false
  uvmfree pagetable sz

structure Access where
  page : Nat
  off : Nat
  len : Nat

/-- The page that holds the user address `va0`, brought in if need be, or 0. -/
def userPage (p : Proc) (pagetable va0 : Nat) : M Nat := do
  let pa0 ← walkaddr pagetable va0
  if pa0 = 0 then
    vmfault p pagetable va0
  else
    return pa0

/-- The loop of `copyout`; each round copies at least one byte. `seen` are the accesses so far. -/
def copyoutLoop (p : Proc) (pagetable : Nat) : Nat → Nat → List UInt8 → List Access → M (Int × List Access)
  | 0, _, _, seen => return (0, seen)
  | rounds + 1, dstva, src, seen =>
    if src = [] then
      return (0, seen)
    else do
      let va0 := pgRoundDown dstva
      if maxva ≤ va0 then
        return (-1, seen)
      let pa0 ← userPage p pagetable va0
      if pa0 = 0 then
        return (-1, seen)
      match ← readPte pagetable va0 with
      | none => throw "kerneltrap"
      | some (_, pte) =>
        if has pte pteW = false then
          return (-1, seen)
        let n := min (pgsize - (dstva - va0)) src.length
        modify fun m => m.store pa0 (dstva - va0) (src.take n)
        copyoutLoop p pagetable rounds ((va0 + pgsize) % 2 ^ 64) (src.drop n) (seen ++ [⟨pa0, dstva - va0, n⟩])

/-- `copyout` of the bytes `src` by process `p`, with the bytes it accesses in user pages. -/
def copyout (p : Proc) (pagetable dstva : Nat) (src : List UInt8) : M (Int × List Access) :=
  copyoutLoop p pagetable src.length dstva src []

structure Copied where
  ret : Int
  bytes : List UInt8
  seen : List Access

def copyinLoop (p : Proc) (pagetable : Nat) : Nat → Nat → Nat → Copied → M Copied
  | 0, _, _, c => return c
  | rounds + 1, srcva, len, c =>
    if len = 0 then
      return c
    else do
      let va0 := pgRoundDown srcva
      let pa0 ← userPage p pagetable va0
      if pa0 = 0 then
        return { c with ret := -1 }
      let n := min (pgsize - (srcva - va0)) len
      let m ← get
      copyinLoop p pagetable rounds ((va0 + pgsize) % 2 ^ 64) (len - n)
        ⟨c.ret, c.bytes ++ m.load pa0 (srcva - va0) n, c.seen ++ [⟨pa0, srcva - va0, n⟩]⟩

def copyin (p : Proc) (pagetable srcva len : Nat) : M Copied :=
  copyinLoop p pagetable len srcva len ⟨0, [], []⟩

end

/-- The inner loop of `copyinstr` over at most `n` bytes of a page: the bytes stored, and whether the last of
them is the NUL. -/
def scanPage (page : Nat → UInt8) : Nat → Nat → List UInt8 × Bool
  | 0, _ => ([], false)
  | n + 1, off =>
    if page off = 0 then
      ([0], true)
    else
      let rest := scanPage page n (off + 1)
      (page off :: rest.1, rest.2)

def copyinstrLoop (pagetable : Nat) : Nat → Nat → Nat → Copied → M Copied
  | 0, _, _, c => return { c with ret := -1 }
  | rounds + 1, srcva, max, c =>
    if max = 0 then
      return { c with ret := -1 }
    else do
      let va0 := pgRoundDown srcva
      let pa0 ← walkaddr pagetable va0
      if pa0 = 0 then
        return { c with ret := -1 }
      let n := min (pgsize - (srcva - va0)) max
      let m ← get
      let (bytes, gotNull) := scanPage (m.page pa0) n (srcva - va0)
      let c := ⟨0, c.bytes ++ bytes, c.seen ++ [⟨pa0, srcva - va0, bytes.length⟩]⟩
      if gotNull then
        return c
      else
        copyinstrLoop pagetable rounds ((va0 + pgsize) % 2 ^ 64) (max - n) c

def copyinstr (pagetable srcva max : Nat) : M Copied := copyinstrLoop pagetable max srcva max ⟨0, [], []⟩

/-- `strlen`, which counts in an `int`. -/
def strlen (s : List UInt8) : Int := ((s.takeWhile (· ≠ 0)).length : Int).bmod (2 ^ 32)

/-- `fetchstr` in a process with this page table; the bytes are those it has stored in `buf`. -/
def fetchstr (pagetable addr : Nat) (max : Int) : M (Int × List UInt8) := do
  let c ← copyinstr pagetable addr (addInt 0 max)
  if c.ret < 0 then
    return (-1, c.bytes)
  else
    return (strlen c.bytes, c.bytes)

end Xv6.Vm
