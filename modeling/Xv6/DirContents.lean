import Xv6.FileContents
import Xv6.InodeEntries
import Xv6.Lib.Slots

namespace Xv6.Blocks

open Xv6.Lib Xv6.Lib.Words Function
open Xv6.Inodes (FileType bsize direntSize dirsiz ninode)

variable {v w u : Vol} {i j dp e inum : Nat} {name : CName} {E : String → Vol → Prop}

def nameFrom (s : CName) : Nat → Nat → List UInt8
  | 0, _ => []
  | n + 1, k => if s k = 0 then [] else s k :: nameFrom s n (k + 1)

/-- What counts of a name: its first `DIRSIZ` bytes up to a zero. -/
def nameOf (s : CName) : List UInt8 := nameFrom s dirsiz 0

theorem sameBytes_eq_nameFrom (s t : CName) (n k : Nat) :
    sameBytes s t n k = true ↔ nameFrom s n k = nameFrom t n k := by
  induction n generalizing k with
  | zero => exact iff_of_true rfl rfl
  | succ n ih =>
    simp only [sameBytes, nameFrom]
    by_cases hne : s k = t k
    · rw [if_neg (not_not.mpr hne), ← hne]
      by_cases hz : s k = 0
      · rw [if_pos hz, if_pos hz, if_pos hz]
        exact iff_of_true rfl rfl
      · rw [if_neg hz, if_neg hz, if_neg hz, ih, List.cons_inj_right]
    · rw [if_pos hne]
      refine iff_of_false Bool.false_ne_true ?_
      split_ifs with hs ht ht
      · exact absurd (hs.trans ht.symm) hne
      · exact not_false
      · exact not_false
      · exact fun he => hne (List.cons.inj he).1

theorem namecmp_eq_nameOf (s t : CName) : namecmp s t = true ↔ nameOf s = nameOf t :=
  sameBytes_eq_nameFrom s t dirsiz 0

/-- An entry of a directory as a slot of a table from names to inode numbers. -/
def slotOf (de : Nat → UInt8) : Option (List UInt8 × Nat) :=
  if direntInum de = 0 then none else some (nameOf (direntName de), direntInum de)

theorem slotOf_eq_some {de : Nat → UInt8} :
    slotOf de = some (nameOf name, inum) ↔ Matches name de ∧ direntInum de = inum := by
  unfold slotOf Matches
  rw [namecmp_eq_nameOf]
  split_ifs with h
  · simp [h]
  · simp [h, eq_comm]

def Vol.table (v : Vol) (dp : Nat) : Slots.Table (List UInt8) Nat :=
  (List.range ((v.cur dp).size / direntSize)).map fun e => slotOf (direntAt (v.byteAt dp) e)

theorem Vol.table_length (h : v.Active dp) : (v.table dp).length = (v.ip dp).size / direntSize := by
  rw [Vol.table, List.length_map, List.length_range, Vol.cur_active h]

theorem Vol.table_get (h : v.Active dp) (e : Nat) :
    (v.table dp)[e]? = if e < (v.ip dp).size / direntSize then
      some (slotOf (direntAt (v.byteAt dp) e)) else none := by
  rw [Vol.table, List.getElem?_map, Vol.cur_active h]
  split_ifs with he
  · rw [List.getElem?_range he]
    rfl
  · rw [List.getElem?_eq_none (by rw [List.length_range]; omega)]
    rfl

structure IsDir (v : Vol) (dp : Nat) : Prop where
  sound : Sound none v
  active : v.Active dp
  type : (v.ip dp).type = .dir
  whole : (v.ip dp).size % direntSize = 0

theorem IsDir.size_eq (h : IsDir v dp) : (v.ip dp).size / direntSize * direntSize = (v.ip dp).size :=
  Nat.div_mul_cancel (Nat.dvd_of_mod_eq_zero h.whole)

theorem IsDir.size_le (h : IsDir v dp) : (v.ip dp).size ≤ maxfile * bsize := by
  have hf := h.sound.full dp (Option.some_ne_none _)
  rw [Vol.Full, Vol.cur_active h.active, h.type] at hf
  exact (hf (by decide)).1

theorem IsDir.stores (h : IsDir v dp) : v.Stores dp (v.ip dp).size (v.byteAt dp) :=
  h.sound.stores h.active

theorem IsDir.size_lt (h : IsDir v dp) : (v.ip dp).size < 2 ^ 32 :=
  lt_of_le_of_lt h.size_le (by decide)

theorem IsDir.entry_le (h : IsDir v dp) (he : e < (v.ip dp).size / direntSize) :
    (e + 1) * direntSize ≤ (v.ip dp).size := by
  rw [← h.size_eq]
  exact Nat.mul_le_mul_right _ he

theorem Vol.table_ne_matches (ha : v.Active dp) (he : e < (v.ip dp).size / direntSize)
    (h : ∀ inum, (v.table dp)[e]? ≠ some (some (nameOf name, inum))) :
    ¬Matches name (direntAt (v.byteAt dp) e) := by
  intro hm
  refine h (direntInum (direntAt (v.byteAt dp) e)) ?_
  rw [Vol.table_get ha, if_pos he, slotOf_eq_some.mpr ⟨hm, rfl⟩]

/-- What `dirlookup` returns: the inode number and the offset of the entry. -/
def Vol.lookup (v : Vol) (dp : Nat) (name : CName) : Option (Nat × Nat) :=
  (Slots.lookup (v.table dp) (nameOf name)).map fun x => (x.2, x.1 * direntSize)

theorem dirlookup_table (h : IsDir v dp) (name : CName) :
    Ensures (dirlookup dp name) v
      (fun r w => r = v.lookup dp name ∧ match r with | none => v = w | some x => Opened x.1 v w)
      (fun e _ => v.NoInodes e ∧ v.lookup dp name ≠ none) := by
  have hst := h.stores
  unfold dirlookup
  apply Ensures.bind_get
  rw [if_neg (not_not.mpr h.type)]
  obtain ⟨hnone, hno⟩ | ⟨e, inum, hsome, he, hfirst⟩ := Slots.lookup_cases (v.table dp) (nameOf name)
  · have hloop : Ensures (lookupLoop dp name (1 + ((v.ip dp).size / direntSize - 0)) (0 * direntSize)) v
        (fun r w => r = v.lookup dp name ∧ match r with | none => v = w | some x => Opened x.1 v w)
        (fun e _ => v.NoInodes e ∧ v.lookup dp name ≠ none) := by
      refine lookupLoop_skip h.active h.size_lt hst (Nat.zero_le _) h.size_eq.le h.size_eq.le ?_ ?_
      · intro e _ he
        exact Vol.table_ne_matches h.active he (hno e)
      · refine lookupLoop_end h.size_eq.ge ⟨?_, rfl⟩
        rw [Vol.lookup, hnone]
        rfl
    rwa [Nat.sub_zero, Nat.zero_mul, Nat.add_comm] at hloop
  · have hlt : e < (v.ip dp).size / direntSize := by
      rw [← Vol.table_length h.active]
      exact (List.getElem?_eq_some_iff.mp he).1
    have hlook : v.lookup dp name = some (inum, e * direntSize) := by
      rw [Vol.lookup, hsome]
      rfl
    rw [Vol.table_get h.active, if_pos hlt, Option.some.injEq, slotOf_eq_some] at he
    obtain ⟨hm, hinum⟩ := he
    have hloop : Ensures (lookupLoop dp name ((v.ip dp).size / direntSize - e + 1 + (e - 0))
        (0 * direntSize)) v
        (fun r w => r = v.lookup dp name ∧ match r with | none => v = w | some x => Opened x.1 v w)
        (fun e _ => v.NoInodes e ∧ v.lookup dp name ≠ none) := by
      have hle : e * direntSize ≤ (v.ip dp).size :=
        le_trans (Nat.mul_le_mul_right _ (Nat.le_succ e)) (h.entry_le hlt)
      refine lookupLoop_skip h.active h.size_lt hst (Nat.zero_le _) hle hle ?_ ?_
      · intro e' _ he'
        exact Vol.table_ne_matches h.active (he'.trans hlt) fun inum' => hfirst e' inum' he'
      · refine lookupLoop_round h.active h.size_lt hst (h.entry_le hlt) (h.entry_le hlt) (fun _ => ?_)
          fun hno => absurd hm hno
        rw [hinum, hlook]
        exact (iget_opened h.sound inum).imp (fun _ _ hw => ⟨rfl, hw⟩)
          fun _ _ he => ⟨he, Option.some_ne_none _⟩
    have hrounds : (v.ip dp).size / direntSize - e + 1 + (e - 0) = (v.ip dp).size / direntSize + 1 := by
      omega
    rwa [hrounds, Nat.zero_mul] at hloop

theorem emptyLoop_table (h : IsDir v dp) (rounds e : Nat) (he : e ≤ (v.ip dp).size / direntSize)
    (hr : (v.ip dp).size / direntSize - e < rounds) (hbefore : ∀ e', e' < e → (v.table dp)[e']? ≠ some none) :
    Ensures (emptyLoop dp rounds (e * direntSize)) v
      (fun off w => v = w ∧ off = Slots.freeSlot (v.table dp) * direntSize) E := by
  have hd : direntSize = 16 := rfl
  induction rounds generalizing e with
  | zero => omega
  | succ rounds ih =>
    unfold emptyLoop
    apply Ensures.bind_get
    by_cases hlt : e < (v.ip dp).size / direntSize
    · have hend := h.entry_le hlt
      have hsize := h.size_lt
      have hget := Vol.table_get h.active e
      rw [if_pos hlt] at hget
      rw [if_pos (by rw [hd] at hend ⊢; omega)]
      refine (readDirent_stores h.active (by rw [hd] at hend ⊢; omega) (by rw [hd] at hend ⊢; omega)
        (h.stores.mono (by rw [hd] at hend ⊢; omega))).seq ?_
      rintro de w ⟨rfl, hde⟩
      obtain ⟨hinum, -⟩ := matches_congr dot (direntAt (v.byteAt dp) e) hde
      split
      · next hz =>
        rw [slotOf, if_pos (hinum ▸ hz)] at hget
        refine .pure ⟨rfl, ?_⟩
        rw [Slots.freeSlot_eq hbefore (.inr hget) (by rw [Vol.table_length h.active]; omega)]
      · next hz =>
        rw [slotOf, if_neg (hinum ▸ hz)] at hget
        have hnext : e * direntSize + direntSize = (e + 1) * direntSize := by ring
        rw [hnext]
        refine ih (e + 1) hlt (by omega) fun e' he' => ?_
        by_cases hlast : e' = e
        · rw [hlast, hget, Ne, Option.some.injEq]
          exact Option.some_ne_none _
        · exact hbefore e' (by omega)
    · obtain rfl : e = (v.ip dp).size / direntSize := by omega
      have hget := Vol.table_get h.active ((v.ip dp).size / direntSize)
      rw [if_neg hlt] at hget
      rw [if_neg (by rw [h.size_eq]; omega)]
      refine .pure ⟨rfl, ?_⟩
      rw [Slots.freeSlot_eq hbefore (.inl hget) (by rw [Vol.table_length h.active])]

theorem strncpy_eq {s : CName} {k : Nat} (h : ∀ m, m < k → s m ≠ 0) : strncpy s k = s k := by
  refine if_neg ?_
  rw [List.any_eq_true]
  rintro ⟨m, hm, hz⟩
  exact h m (List.mem_range.mp hm) (of_decide_eq_true hz)

theorem nameFrom_strncpy (s : CName) (n k : Nat) (h : ∀ m, m < k → s m ≠ 0) :
    nameFrom (strncpy s) n k = nameFrom s n k := by
  induction n generalizing k with
  | zero => rfl
  | succ n ih =>
    rw [nameFrom, nameFrom, strncpy_eq h]
    split
    · rfl
    · next hz =>
      refine congrArg _ (ih (k + 1) fun m hm => ?_)
      rcases Nat.lt_succ_iff_lt_or_eq.mp hm with hlt | rfl
      · exact h m hlt
      · exact hz

theorem slotOf_direntBytes (name : CName) (hpos : 0 < inum) (hlt : inum < 2 ^ 16) :
    slotOf (direntBytes inum (strncpy name)) = some (nameOf name, inum) := by
  have hname : nameOf (strncpy name) = nameOf name := nameFrom_strncpy name dirsiz 0 nofun
  rw [slotOf, direntInum_direntBytes _ _ hlt, direntName_direntBytes, if_neg (by omega), hname]

theorem slotOf_congr {de de' : Nat → UInt8} (h : ∀ j, j < direntSize → de j = de' j) :
    slotOf de = slotOf de' := by
  have hd : direntSize = 16 := rfl
  have hz : dirsiz = 14 := rfl
  have hinum : direntInum de = direntInum de' := getLE_congr fun k _ hk => h k (by omega)
  have hname : nameOf (direntName de) = nameOf (direntName de') := by
    have hcmp : namecmp (direntName de) (direntName de') = namecmp (direntName de) (direntName de) :=
      namecmp_congr fun k hk => (h (k + 2) (by omega)).symm
    rw [← namecmp_eq_nameOf, hcmp, namecmp_eq_nameOf]
  rw [slotOf, slotOf, hinum, hname]

theorem Rewritten.table_insert (hpos : 0 < inum) (hlt : inum < 2 ^ 16) (h : IsDir v dp)
    (haw : w.Active dp)
    (hw : Rewritten dp (Slots.freeSlot (v.table dp) * direntSize) direntSize direntSize
      (direntBytes inum (strncpy name)) v w) :
    w.table dp = Slots.insert (v.table dp) (nameOf name) inum := by
  have hd : direntSize = 16 := rfl
  have hsize := hw.fields.2.2
  have hmod := h.whole
  have hle := Slots.freeSlot_le (v.table dp)
  rw [Vol.table_length h.active] at hle
  obtain ⟨slot, hslot⟩ : ∃ slot, slot = Slots.freeSlot (v.table dp) := ⟨_, rfl⟩
  rw [← hslot] at hle hsize hw
  have hoff : slot * direntSize ≤ (v.ip dp).size := h.size_eq ▸ Nat.mul_le_mul_right _ hle
  have hbyte := fun k hk => hw.byteAt_self (k := k) h.stores hoff hk
  rw [hd] at hsize hmod hle hoff hbyte
  refine List.ext_getElem? fun e => ?_
  rw [Slots.getElem?_insert, ← hslot, Vol.table_get haw, Vol.table_get h.active, hd]
  by_cases he : e = slot
  · rw [if_pos he, if_pos (by omega), ← slotOf_direntBytes name hpos hlt]
    refine congrArg some (slotOf_congr fun j hj => ?_)
    rw [hd] at hj
    rw [direntAt, hd, hbyte _ (by omega), if_pos (by omega), he, Nat.add_sub_cancel_left]
  · rw [if_neg he]
    by_cases hlow : e < (v.ip dp).size / 16
    · rw [if_pos hlow, if_pos (by omega)]
      refine congrArg some (slotOf_congr fun j hj => ?_)
      rw [hd] at hj
      rw [direntAt, direntAt, hd, hbyte _ (by omega), if_neg (by omega)]
    · rw [if_neg hlow, if_neg (by omega)]

/-- `n` bytes at `off` are within the largest file, and there is a free block for each that is
missing. -/
def Vol.RoomFor (v : Vol) (i off n : Nat) : Prop :=
  off + n ≤ maxfile * bsize ∧ (v.missing i off n).card ≤ v.freeBlocks.card

theorem writei_entry (h : IsDir v dp) {off : Nat} (hoff : off ≤ (v.ip dp).size)
    (hslot : off % direntSize = 0) (data : Nat → UInt8) :
    Ensures (writei dp (.kernel data) (.ofNat off) (.ofNat direntSize)) v
      (fun r w => Sound none w ∧ Kept v w ∧ (∀ j, j ≠ dp → SameFile j v w) ∧
        (r = direntSize ↔ v.RoomFor dp off direntSize) ∧
        (r = direntSize → Rewritten dp off direntSize direntSize data v w) ∧
        (r ≠ direntSize → SameFile dp v w)) E := by
  have hd : direntSize = 16 := rfl
  have hb : bsize = 1024 := rfl
  have hsize := h.size_lt
  have hn : (UInt32.ofNat direntSize).toNat = direntSize := by decide
  have ho : (UInt32.ofNat off).toNat = off := UInt32.toNat_ofNat_of_lt' (lt_of_le_of_lt hoff hsize)
  by_cases hmax : off + direntSize ≤ maxfile * bsize
  · have hsrc : (Src.kernel data).Gives (UInt32.ofNat direntSize).toNat data := fun _ _ => rfl
    have hwr := writei_written (E := E) hsrc h.sound h.active (ho.symm ▸ hoff) (by rwa [ho, hn])
    rw [ho, hn] at hwr
    refine (hwr.both (writei_ensures h.sound h.active _ _ _)).post ?_
    rintro r w ⟨⟨tot, rfl, hle, hre, hstop⟩, hw, hk⟩
    refine ⟨hw, hk, fun j hj => hre.file_other hj, ?_⟩
    rcases Nat.lt_or_eq_of_le hle with hlt | rfl
    · obtain ⟨hfull, hnone, hrest⟩ := hstop hlt
      obtain rfl : tot = 0 := by
        rw [hd] at hlt hslot
        rw [hb] at hrest
        omega
      have hp : place ((off + 0) / bsize) ∈ places off direntSize :=
        mem_places.mpr ⟨off + 0, by omega, by omega, .inl rfl⟩
      have hroom := hre.freeBlocks_lt h.sound.owned hw.owned hfull hp hnone
      refine ⟨iff_of_false (by decide) fun hr => absurd hr.2 (by omega), fun he => absurd he (by decide),
        fun _ => hre.file_self h.active (hk.active dp h.active) h.stores hoff⟩
    · exact ⟨iff_of_true rfl ⟨hmax, hre.card_le_freeBlocks h.sound.owned hw.owned⟩, fun _ => hre,
        fun hne => absurd rfl hne⟩
  · have hadd : (UInt32.ofNat off + UInt32.ofNat direntSize).toNat = off + direntSize := by
      have hle := h.size_le
      have hcap : maxfile * bsize + 16 < 2 ^ 32 := by decide
      rw [UInt32.toNat_add, ho, hn]
      omega
    unfold writei writeiBy
    apply Ensures.bind_get
    have hsame : Sound none v ∧ Kept v v ∧ (∀ j, j ≠ dp → SameFile j v v) ∧
        ((-1 : Int) = direntSize ↔ v.RoomFor dp off direntSize) ∧
        ((-1 : Int) = direntSize → Rewritten dp off direntSize direntSize data v v) ∧
        ((-1 : Int) ≠ direntSize → SameFile dp v v) :=
      ⟨h.sound, Kept.refl v, fun j _ => SameFile.refl j v,
        iff_of_false (by decide) fun hr => hmax hr.1, fun he => absurd he (by decide),
        fun _ => SameFile.refl dp v⟩
    split_ifs with hbad hbig
    · exact .pure hsame
    · exact .pure hsame
    · exact absurd (by rw [hadd]; omega) hbig

theorem SameFile.table (h : SameFile dp v w) : w.table dp = v.table dp := by
  have hd : direntSize = 16 := rfl
  rw [Vol.table, Vol.table, h.size]
  refine List.map_congr_left fun e he => slotOf_congr fun j hj => h.bytes _ ?_
  rw [List.mem_range] at he
  rw [hd] at he hj ⊢
  omega

theorem IsDir.of_same (h : IsDir v dp) (hs : Sound none w) (haw : w.Active dp) (hf : SameFile dp v w) :
    IsDir w dp := by
  obtain ⟨htype, -, hsize, -⟩ := hf
  rw [Vol.cur_active haw, Vol.cur_active h.active] at htype hsize
  exact ⟨hs, haw, htype.trans h.type, hsize ▸ h.whole⟩

theorem IsDir.of_insert (h : IsDir v dp) (hs : Sound none w) (hk : Kept v w) {slot : Nat}
    {data : Nat → UInt8} (hw : Rewritten dp (slot * direntSize) direntSize direntSize data v w) :
    IsDir w dp := by
  obtain ⟨htype, -, hsize⟩ := hw.fields
  refine ⟨hs, hk.active dp h.active, htype.trans h.type, ?_⟩
  have hd : direntSize = 16 := rfl
  have hmod := h.whole
  rw [hsize]
  rw [hd] at hmod ⊢
  omega

/-- `dirlookup` of `name` returns `r`; it may stop only because the inode table is full. -/
def Vol.Finds (v : Vol) (dp : Nat) (name : CName) (r : Option (Nat × Nat)) : Prop :=
  Ensures (dirlookup dp name) v (fun r' _ => r' = r) (fun e _ => v.NoInodes e ∧ r ≠ none)

theorem IsDir.finds (h : IsDir v dp) (name : CName) : v.Finds dp name (v.lookup dp name) :=
  (dirlookup_table h name).post fun _ _ hr => hr.1

def Vol.emptyOff (v : Vol) (dp : Nat) : Nat := Slots.freeSlot (v.table dp) * direntSize

theorem IsDir.emptyOff_le (h : IsDir v dp) : v.emptyOff dp ≤ (v.ip dp).size := by
  have hle := Slots.freeSlot_le (v.table dp)
  rw [Vol.table_length h.active] at hle
  exact h.size_eq ▸ Nat.mul_le_mul_right _ hle

theorem Vol.lookup_insert (hdis : Slots.Distinct (v.table dp)) (hnone : v.lookup dp name = none)
    (hw : w.table dp = Slots.insert (v.table dp) (nameOf name) inum) (name' : CName) :
    w.lookup dp name' =
      if nameOf name' = nameOf name then some (inum, v.emptyOff dp) else v.lookup dp name' := by
  rw [Vol.lookup, hw, Slots.lookup_insert hdis (Option.map_eq_none_iff.mp hnone)]
  split <;> rfl

/-- What `dirlink` of `name` and `inum` leaves. -/
structure Linked (dp : Nat) (name : CName) (inum : Nat) (v : Vol) (r : Bool) (w : Vol) : Prop where
  dir : IsDir w dp
  distinct : Slots.Distinct (w.table dp)
  kept : Kept v w
  others : ∀ j, j ≠ dp → SameFile j v w
  done : r = true ↔ v.lookup dp name = none ∧ v.RoomFor dp (v.emptyOff dp) direntSize
  failed : r = false → SameFile dp v w
  table : r = true → w.table dp = Slots.insert (v.table dp) (nameOf name) inum
  finds : r = true → ∀ name', w.Finds dp name'
    (if nameOf name' = nameOf name then some (inum, v.emptyOff dp) else v.lookup dp name')

structure Added (dp : Nat) (name : CName) (inum : Nat) (v : Vol) (r : Bool) (w : Vol) : Prop where
  dir : IsDir w dp
  kept : Kept v w
  others : ∀ j, j ≠ dp → SameFile j v w
  done : r = true ↔ v.lookup dp name = none ∧ v.RoomFor dp (v.emptyOff dp) direntSize
  failed : r = false → SameFile dp v w
  entry : r = true →
    Rewritten dp (v.emptyOff dp) direntSize direntSize (direntBytes inum (strncpy name)) v w

theorem dirlink_added (h : IsDir v dp) (name : CName) (inum : Nat) :
    Ensures (dirlink dp name inum) v (Added dp name inum v)
      (fun e _ => v.NoInodes e ∧ v.lookup dp name ≠ none) := by
  unfold dirlink
  refine (dirlookup_table h name).seq ?_
  rintro r w ⟨hr, hw⟩
  cases r with
  | some x =>
    refine (iput_closed hw.sound fun hlast => ?_).seq ?_
    · rw [hw.fresh hlast.1] at hlast
      exact Bool.false_ne_true hlast.2.1
    · intro _ u hu
      have hk := hw.toGained.lost hu.toLost
      have hsame := fun j => (hw.toSameFiles.file j).trans (hu.toSameFiles.file j)
      refine .pure ⟨h.of_same hu.sound (hk.active dp h.active) (hsame dp), hk, fun j _ => hsame j, ?_,
        fun _ => hsame dp, nofun⟩
      exact iff_of_false Bool.false_ne_true fun hn => by rw [← hr] at hn; cases hn.1
  | none =>
    obtain rfl := hw
    apply Ensures.bind_get
    apply Ensures.bind
    have hempty := emptyLoop_table (E := fun e _ => v.NoInodes e ∧ v.lookup dp name ≠ none) h
      ((v.ip dp).size / direntSize + 1) 0 (Nat.zero_le _) (Nat.lt_succ_self _) nofun
    rw [Nat.zero_mul] at hempty
    refine hempty.post ?_
    rintro off w ⟨rfl, rfl⟩
    refine (writei_entry h h.emptyOff_le (Nat.mul_mod_left _ _) _).seq ?_
    rintro r w ⟨hs, hk, hothers, hroom, hdone, hnot⟩
    apply Ensures.pure
    by_cases hfull : r = direntSize
    · have hre := hdone hfull
      rw [decide_eq_true hfull]
      exact ⟨h.of_insert hs hk hre, hk, hothers, iff_of_true rfl ⟨hr.symm, hroom.mp hfull⟩, nofun,
        fun _ => hre⟩
    · rw [decide_eq_false hfull]
      exact ⟨h.of_same hs (hk.active dp h.active) (hnot hfull), hk, hothers,
        iff_of_false Bool.false_ne_true fun hr => hfull (hroom.mpr hr.2), fun _ => hnot hfull, nofun⟩

theorem Added.linked {r : Bool} (ha : Added dp name inum v r w) (h : IsDir v dp)
    (hdis : Slots.Distinct (v.table dp)) (hpos : 0 < inum) (hlt : inum < 2 ^ 16) :
    Linked dp name inum v r w := by
  cases r with
  | false =>
    have htab := (ha.failed rfl).table
    exact ⟨ha.dir, htab ▸ hdis, ha.kept, ha.others, ha.done, ha.failed, nofun, nofun⟩
  | true =>
    have hnone := (ha.done.mp rfl).1
    have htab := (ha.entry rfl).table_insert hpos hlt h ha.dir.active
    have hdisw := hdis.insert (Option.map_eq_none_iff.mp hnone) inum
    refine ⟨ha.dir, htab ▸ hdisw, ha.kept, ha.others, ha.done, ha.failed, fun _ => htab,
      fun _ name' => ?_⟩
    rw [← Vol.lookup_insert hdis hnone htab]
    exact ha.dir.finds name'

/-- A directory is a finite map, which `dirlink` extends. -/
theorem directories_are_maps (h : IsDir v dp) (hdis : Slots.Distinct (v.table dp)) (name : CName)
    {inum : Nat} (hpos : 0 < inum) (hlt : inum < 2 ^ 16) :
    (∀ name', v.Finds dp name' (v.lookup dp name')) ∧
      Ensures (dirlink dp name inum) v (Linked dp name inum v)
        (fun e _ => v.NoInodes e ∧ v.lookup dp name ≠ none) :=
  ⟨h.finds, (dirlink_added h name inum).post fun _ _ ha => ha.linked h hdis hpos hlt⟩

theorem openRoot_isDir : IsDir openRoot 1 := ⟨openRoot_wellFormed, ⟨by decide, rfl⟩, rfl, rfl⟩

/-- An entry is added to the empty root directory. -/
theorem directories_are_maps_openRoot : (∀ name', openRoot.Finds 1 name' (openRoot.lookup 1 name')) ∧
    Ensures (dirlink 1 oneLetter 2) openRoot (Linked 1 oneLetter 2 openRoot)
      (fun e _ => openRoot.NoInodes e ∧ openRoot.lookup 1 oneLetter ≠ none) :=
  directories_are_maps openRoot_isDir (fun _ _ _ _ _ hi => nomatch hi) oneLetter (by decide) (by decide)

/-- The root directory has one entry, for the file 60; the first `m` inodes are in memory. -/
def rootVol (m : Nat) : Vol where
  size := 8
  nmeta := 4
  ninodes := 64
  bit b := b < 5
  blk b := if b = 4 then direntBytes 60 oneLetter else fun _ => 0
  dinode := inode
  itable i := ⟨if 0 < i ∧ i ≤ m then 1 else 0, true, inode i⟩
where
  inode (i : Nat) : Dinode :=
    if i = 1 then ⟨.dir, 1, 16, fun k => if k = 0 then 4 else 0⟩
    else if i < 64 then ⟨.file, 1, 0, fun _ => 0⟩ else Dinode.zero

section RootVol

variable (m : Nat)

theorem rootVol_cur (i : Nat) : (rootVol m).cur i = (rootVol m).dinode i := ite_self _

theorem rootVol_inode {i : Nat} (hi : i ≠ 1) :
    (rootVol m).dinode i = if i < 64 then ⟨.file, 1, 0, fun _ => 0⟩ else Dinode.zero := if_neg hi

theorem rootVol_ptr : (rootVol m).ptr = update (fun _ => none) (1, .addr 0) (some 4) := by
  have htype : ((rootVol m).dinode 1).type = .dir := rfl
  refine ptr_single (rootVol_cur m) (by rw [htype]; decide) (by decide) rfl fun j hj => ?_
  rw [rootVol_inode m hj]
  split <;> rfl

variable {m}

theorem rootVol_isDir (hpos : 0 < m) (hm : m < 64) : IsDir (rootVol m) 1 := by
  have htype : ((rootVol m).dinode 1).type = .dir := rfl
  have hmeta : (rootVol m).nmeta = 4 := rfl
  have hroot : ((rootVol m).ip 1).size = 16 := rfl
  refine ⟨⟨owned_single (by rw [hmeta]; decide) (rootVol_ptr m) fun b => ?_, ?_, ?_, ?_,
    by show 8 ≤ _; decide, by rw [hmeta]; decide⟩, ⟨?_, rfl⟩, rfl, by rw [hroot]; rfl⟩
  · have hbit : (rootVol m).bit b = true ↔ b < 5 := decide_eq_true_iff
    rw [hbit, hmeta]
    omega
  · exact fun i _ _ => rfl
  · intro i _ ha
    have hlt : i < 64 := by
      by_contra hge
      have href : ((rootVol m).itable i).ref = 0 := if_neg (by omega)
      exact absurd ha.1 (by rw [href]; exact lt_irrefl 0)
    rw [← Vol.cur_active ha, rootVol_cur]
    by_cases hi : i = 1
    · rw [hi, htype]
      decide
    · rw [rootVol_inode m hi, if_pos hlt]
      decide
  · intro i _ _
    rw [rootVol_cur, rootVol_ptr]
    by_cases hi : i = 1
    · have hsize : ((rootVol m).dinode i).size = 16 := by rw [hi]; rfl
      rw [hsize]
      refine ⟨by decide, fun bn hbn => ?_⟩
      obtain rfl : bn = 0 := by
        rw [show bsize = 1024 from rfl] at hbn
        omega
      rw [hi]
      decide
    · have hsize : ((rootVol m).dinode i).size = 0 := by
        rw [rootVol_inode m hi]
        split <;> rfl
      rw [hsize]
      exact ⟨Nat.zero_le _, fun bn hbn => absurd hbn (Nat.not_lt_zero _)⟩
  · rw [show ((rootVol m).itable 1).ref = 1 from if_pos ⟨Nat.one_pos, hpos⟩]
    exact Nat.one_pos

end RootVol

/-- `dirlink` of a name that is there does not return if the inode table is full. -/
theorem full_itable_stops_dirlink : ∃ (v : Vol) (dp inum : Nat) (name : CName), IsDir v dp ∧
    Slots.Distinct (v.table dp) ∧ 0 < inum ∧ inum < 2 ^ 16 ∧ v.lookup dp name ≠ none ∧
    Ensures (dirlink dp name inum) v (fun _ _ => False) (fun e _ => e = "iget: no inodes") := by
  refine ⟨rootVol ninode, 1, 2, oneLetter, rootVol_isDir (by decide) (by decide), ?_, by decide,
    by decide, by decide +kernel, by decide +kernel⟩
  have hlen : ((rootVol ninode).table 1).length = 1 := rfl
  intro e e' name x y he he'
  have hlt := (List.getElem?_eq_some_iff.mp he).1
  have hlt' := (List.getElem?_eq_some_iff.mp he').1
  omega

end Xv6.Blocks
