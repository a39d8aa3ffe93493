import Xv6.DirContents
import Xv6.Lib.Zoom

namespace Xv6.Blocks

open Xv6.Lib Function
open Xv6.Inodes (FileType dirsiz rootino)
open Xv6.LogSystem (memmove)

/-! Paths. A path is the list of its bytes before the terminating zero. -/

def slash : UInt8 := 47

def isSlash (c : UInt8) : Bool := c = slash

def inElem (c : UInt8) : Bool := c ≠ slash ∧ c ≠ 0

/-- What `skipelem` leaves in `name` for the element `elem`. -/
def copyElem (elem : List UInt8) (name : CName) : CName :=
  if dirsiz ≤ elem.length then
    memmove name 0 (elem.getD · 0) dirsiz
  else
    update (memmove name 0 (elem.getD · 0) elem.length) elem.length 0

/-- The rest of the path and the element; none if there is no element left. -/
def skipelem (path : List UInt8) (name : CName) : Option (List UInt8 × CName) :=
  let s := path.dropWhile isSlash
  if s.headD 0 = 0 then
    none
  else
    some ((s.dropWhile inElem).dropWhile isSlash, copyElem (s.takeWhile inElem) name)

def skipelems : Nat → List UInt8 → CName → List (List UInt8)
  | 0, _, _ => []
  | n + 1, path, name =>
    match skipelem path name with
    | none => []
    | some (path, name) => nameOf name :: skipelems n path name

/-- The file system with the sleep locks of the inodes. -/
structure Fs where
  vol : Vol
  locked : Nat → Bool

abbrev F := EStateM String Fs

def onVol {α : Type} (m : V α) : F α := zoom Fs.vol (fun v s => { s with vol := v }) m

def Fs.setLocked (s : Fs) (i : Nat) (b : Bool) : Fs := { s with locked := update s.locked i b }

/-- `ilock` with its `acquiresleep`; alone in the kernel, the process would sleep for ever. -/
def lockInode (i : Nat) : F Unit := do
  let s ← get
  if (s.vol.itable i).ref < 1 then
    throw "ilock"
  else if s.locked i then
    throw "acquiresleep"
  else do
    set (s.setLocked i true)
    onVol (ilock i)

def iunlock (i : Nat) : F Unit := do
  let s ← get
  if s.locked i = false ∨ (s.vol.itable i).ref < 1 then
    throw "iunlock"
  else
    set (s.setLocked i false)

def iunlockput (i : Nat) : F Unit := do
  iunlock i
  onVol (iput i)

/-- The loop of `namex`, with the final contents of `name`. Each round takes a byte of the path, so
one round more than it has bytes is enough. -/
def namexLoop (parent : Bool) : Nat → Nat → List UInt8 → CName → F (Option Nat × CName)
  | 0, _, _, name => return (none, name)
  | rounds + 1, ip, path, name =>
    match skipelem path name with
    | none =>
      if parent then do
        onVol (iput ip)
        return (none, name)
      else
        return (some ip, name)
    | some (path, name) => do
      lockInode ip
      let s ← get
      if (s.vol.ip ip).type ≠ .dir then do
        iunlockput ip
        return (none, name)
      else if parent ∧ path.headD 0 = 0 then do
        iunlock ip
        return (some ip, name)
      else do
        match ← onVol (dirlookup ip name) with
        | none => do
          iunlockput ip
          return (none, name)
        | some (next, _) => do
          iunlockput ip
          namexLoop parent rounds next path name

def namex (cwd : Nat) (path : List UInt8) (parent : Bool) (name : CName) : F (Option Nat × CName) :=
  if path.headD 0 = slash then do
    onVol (iget rootino)
    namexLoop parent (path.length + 1) rootino path name
  else do
    onVol (idup cwd)
    namexLoop parent (path.length + 1) cwd path name

def namei (cwd : Nat) (path : List UInt8) (name : CName) : F (Option Nat) := do
  let (ip, _) ← namex cwd path false name
  return ip

def nameiparent (cwd : Nat) (path : List UInt8) (name : CName) : F (Option Nat × CName) :=
  namex cwd path true name

/-- The non-empty parts of a path between slashes, cut to what counts of a name. -/
def components (path : List UInt8) : List (List UInt8) :=
  ((path.splitOn slash).filter (· ≠ [])).map (·.take dirsiz)

variable {path elem : List UInt8} {name : CName}

theorem components_slash (path : List UInt8) : components (slash :: path) = components path := by
  have hno : ∀ c ∈ ([] : List UInt8), (c == slash) = false := nofun
  have hfirst := List.splitOnP_append_cons_of_forall_mem hno slash (beq_self_eq_true slash) path
  rw [List.nil_append] at hfirst
  rw [components, List.splitOn, hfirst]
  rfl

theorem components_dropWhile (path : List UInt8) :
    components (path.dropWhile isSlash) = components path := by
  induction path with
  | nil => rfl
  | cons c path ih =>
    by_cases hc : isSlash c = true
    · rw [List.dropWhile_cons_of_pos hc, ih, of_decide_eq_true hc, components_slash]
    · rw [List.dropWhile_cons_of_neg hc]

theorem components_append {rest : List UInt8} (hne : elem ≠ []) (hno : ∀ c ∈ elem, inElem c = true)
    (hrest : rest = [] ∨ rest.head? = some slash) :
    components (elem ++ rest) = elem.take dirsiz :: components rest := by
  have hall : ∀ c ∈ elem, (c == slash) = false := by
    intro c hc
    exact beq_false_of_ne (of_decide_eq_true (hno c hc)).1
  rcases hrest with rfl | hhead
  · rw [List.append_nil, components, List.splitOn, List.splitOnP_eq_singleton hall]
    simp [hne, components]
  · obtain ⟨rest, rfl⟩ := List.head?_eq_some_iff.mp hhead
    rw [components_slash, components, List.splitOn,
      List.splitOnP_append_cons_of_forall_mem hall slash (beq_self_eq_true slash),
      List.filter_cons_of_pos (by simpa using hne), List.map_cons]
    rfl

theorem nameFrom_eq_take {s : CName} (l : List UInt8) (n k : Nat) (hno : ∀ c ∈ l, c ≠ 0)
    (hs : ∀ j c, l[j]? = some c → j < n → s (k + j) = c) (hend : l.length < n → s (k + l.length) = 0) :
    nameFrom s n k = l.take n := by
  induction n generalizing l k with
  | zero => rfl
  | succ n ih =>
    rw [nameFrom]
    cases l with
    | nil => exact if_pos (hend (Nat.succ_pos n))
    | cons c l =>
      have hc : s k = c := hs 0 c rfl (Nat.succ_pos n)
      rw [if_neg (hc ▸ hno c List.mem_cons_self), List.take_succ_cons, hc]
      refine congrArg _ (ih l (k + 1) (fun d hd => hno d (List.mem_cons_of_mem _ hd)) ?_ ?_)
      · intro j d hj hlt
        have hsj := hs (j + 1) d hj (by omega)
        rwa [← Nat.add_assoc, Nat.add_right_comm] at hsj
      · intro hlt
        have hend' := hend (Nat.succ_lt_succ hlt)
        rwa [List.length_cons, ← Nat.add_assoc, Nat.add_right_comm] at hend'

theorem nameOf_copyElem (hno : ∀ c ∈ elem, c ≠ 0) (name : CName) :
    nameOf (copyElem elem name) = elem.take dirsiz := by
  refine nameFrom_eq_take elem dirsiz 0 hno (fun j c hj hlt => ?_) fun hlt => ?_
  · have hlen := (List.getElem?_eq_some_iff.mp hj).1
    rw [Nat.zero_add, copyElem]
    split_ifs with hbig
    · rw [memmove, if_pos ⟨Nat.zero_le j, by omega⟩, Nat.sub_zero, List.getD_eq_getElem?_getD, hj,
        Option.getD_some]
    · rw [update_of_ne (by omega), memmove, if_pos ⟨Nat.zero_le j, by omega⟩, Nat.sub_zero,
        List.getD_eq_getElem?_getD, hj, Option.getD_some]
  · rw [Nat.zero_add, copyElem, if_neg (by omega), update_self]

theorem not_mem_dropWhile {p : UInt8 → Bool} (h : (0 : UInt8) ∉ path) : 0 ∉ path.dropWhile p :=
  fun hm => h ((List.dropWhile_sublist p).mem hm)

theorem head?_dropWhile_slash (path : List UInt8) : (path.dropWhile isSlash).head? ≠ some slash := by
  intro h
  have hnot := List.head?_dropWhile_not isSlash path
  rw [h] at hnot
  exact absurd hnot (by decide)

theorem exists_cons (hp : (0 : UInt8) ∉ path) (hs : path.head? ≠ some slash) (hne : path ≠ []) :
    ∃ c cs, path = c :: cs ∧ inElem c = true := by
  obtain ⟨c, cs, rfl⟩ := List.exists_cons_of_ne_nil hne
  exact ⟨c, cs, rfl,
    decide_eq_true ⟨fun he => hs (congrArg some he), fun he => hp (he ▸ List.mem_cons_self)⟩⟩

theorem length_dropWhile_lt {c : UInt8} (cs : List UInt8) (hc : inElem c = true) :
    ((c :: cs).dropWhile inElem).length < (c :: cs).length := by
  rw [List.dropWhile_cons_of_pos hc]
  exact Nat.lt_succ_of_le (List.dropWhile_sublist inElem).length_le

theorem components_eq_cons (hp : (0 : UInt8) ∉ path) (hs : path.head? ≠ some slash) (hne : path ≠ []) :
    components path = (path.takeWhile inElem).take dirsiz :: components (path.dropWhile inElem) := by
  obtain ⟨c, cs, rfl, hc⟩ := exists_cons hp hs hne
  have helem : (c :: cs).takeWhile inElem ≠ [] := by
    rw [List.takeWhile_cons_of_pos hc]
    exact List.cons_ne_nil _ _
  have hrest : (c :: cs).dropWhile inElem = [] ∨ ((c :: cs).dropWhile inElem).head? = some slash := by
    cases hd : (c :: cs).dropWhile inElem with
    | nil => exact .inl rfl
    | cons d ds =>
      have hnot := List.head?_dropWhile_not inElem (c :: cs)
      have hzero : d ≠ 0 := by
        rintro rfl
        exact not_mem_dropWhile hp (hd ▸ List.mem_cons_self)
      rw [hd, List.head?_cons] at hnot
      have hds : ¬(d ≠ slash ∧ d ≠ 0) := of_decide_eq_false (by simpa [inElem] using hnot)
      exact .inr (congrArg some (not_not.mp fun h => hds ⟨h, hzero⟩))
  conv_lhs => rw [← List.takeWhile_append_dropWhile (p := inElem) (l := c :: cs)]
  exact components_append helem (List.all_eq_true.mp List.all_takeWhile) hrest

theorem components_eq_nil (hp : (0 : UInt8) ∉ path) (hs : path.head? ≠ some slash) :
    components path = [] ↔ path = [] := by
  constructor
  · intro h
    by_contra hne
    rw [components_eq_cons hp hs hne] at h
    cases h
  · rintro rfl
    rfl

theorem headD_eq_zero (hp : (0 : UInt8) ∉ path) : path.headD 0 = 0 ↔ path = [] := by
  cases path with
  | nil => exact iff_of_true rfl rfl
  | cons c cs =>
    refine iff_of_false (fun he => hp ?_) (List.cons_ne_nil _ _)
    rw [← show c = 0 from he]
    exact List.mem_cons_self

theorem skipelem_cases (hp : (0 : UInt8) ∉ path) (name : CName) :
    (skipelem path name = none ∧ components path = []) ∨ ∃ rest name',
      skipelem path name = some (rest, name') ∧ components path = nameOf name' :: components rest ∧
      (0 : UInt8) ∉ rest ∧ rest.length < path.length ∧ (rest.headD 0 = 0 ↔ components rest = []) := by
  have hzero : (0 : UInt8) ∉ path.dropWhile isSlash := not_mem_dropWhile hp
  have hhead := head?_dropWhile_slash path
  rw [← components_dropWhile path]
  by_cases hs : path.dropWhile isSlash = []
  · exact .inl ⟨if_pos ((headD_eq_zero hzero).mpr hs), by rw [hs]; rfl⟩
  · have hrest : (0 : UInt8) ∉ ((path.dropWhile isSlash).dropWhile inElem).dropWhile isSlash :=
      not_mem_dropWhile (not_mem_dropWhile hzero)
    refine .inr ⟨_, _, if_neg (mt (headD_eq_zero hzero).mp hs), ?_, hrest, ?_, ?_⟩
    · rw [components_eq_cons hzero hhead hs, nameOf_copyElem, components_dropWhile]
      intro c hc
      exact (of_decide_eq_true (List.all_eq_true.mp List.all_takeWhile c hc)).2
    · obtain ⟨c, cs, he, hc⟩ := exists_cons hzero hhead hs
      have hdrop := length_dropWhile_lt cs hc
      rw [← he] at hdrop
      have hpath : (path.dropWhile isSlash).length ≤ path.length := (List.dropWhile_sublist _).length_le
      have hlast : (((path.dropWhile isSlash).dropWhile inElem).dropWhile isSlash).length ≤
          ((path.dropWhile isSlash).dropWhile inElem).length := (List.dropWhile_sublist _).length_le
      omega
    · rw [headD_eq_zero hrest, components_eq_nil hrest (head?_dropWhile_slash _)]

theorem skipelems_eq_components (n : Nat) (hp : (0 : UInt8) ∉ path) (hn : path.length ≤ n)
    (name : CName) : skipelems n path name = components path := by
  induction n generalizing path name with
  | zero =>
    obtain rfl := List.length_eq_zero_iff.mp (Nat.le_zero.mp hn)
    rfl
  | succ n ih =>
    rw [skipelems]
    obtain ⟨hskip, hnil⟩ | ⟨rest, name', hskip, hcons, hrest, hlt, -⟩ := skipelem_cases hp name
    · rw [hskip, hnil]
    · rw [hskip, hcons, ← ih hrest (by omega) name']

end Xv6.Blocks
