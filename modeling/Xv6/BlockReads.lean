import Xv6.BlockDirs
import Xv6.BlockFiles

namespace Xv6.Blocks

open Xv6.Lib Xv6.Lib.Words Function
open Xv6.Inodes (bsize direntSize dirsiz)
open Xv6.LogSystem (memmove)

variable {v : Vol} {i off : Nat} {data : Nat → UInt8} {dst : Dst} {E : String → Vol → Prop}

def Vol.Stores (v : Vol) (i lim : Nat) (data : Nat → UInt8) : Prop :=
  ∀ off, off < lim → ∃ b, v.ptr (i, place (off / bsize)) = some b ∧ v.blk b (off % bsize) = data off

theorem Vol.Stores.mono {lim lim' : Nat} (h : v.Stores i lim data) (hle : lim' ≤ lim) :
    v.Stores i lim' data := fun off hoff => h off (lt_of_lt_of_le hoff hle)

theorem Vol.Stores.block {lim m b : Nat} (h : v.Stores i lim data) (hm : off + m ≤ lim)
    (hin : m ≤ bsize - off % bsize) (hb : v.ptr (i, place (off / bsize)) = some b) {j : Nat} (hj : j < m) :
    v.blk b (off % bsize + j) = data (off + j) := by
  have hdiv : (off + j) / bsize = off / bsize ∧ (off + j) % bsize = off % bsize + j := by
    have hbs : bsize = 1024 := rfl
    rw [hbs] at hin ⊢
    omega
  obtain ⟨c, hc, hdata⟩ := h (off + j) (by omega)
  rw [hdiv.1, hb] at hc
  obtain rfl := Option.some.inj hc
  rwa [hdiv.2] at hdata

theorem readLoop_done {n tot : Nat} (rounds off : Nat) (buf : Nat → UInt8) (h : n ≤ tot) :
    readLoop i dst n rounds off tot buf = pure ((tot : Int), buf) := by
  cases rounds with
  | zero => rfl
  | succ rounds =>
    unfold readLoop
    rw [if_neg (not_lt.mpr h)]

theorem readLoop_stores (hdst : ∀ tot m, dst.fails tot m = false) (n rounds tot : Nat) (buf : Nat → UInt8)
    (ha : v.Active i) (hn : tot ≤ n) (hrounds : n - tot ≤ rounds) (hst : v.Stores i (off + n) data)
    (hbuf : ∀ j, j < tot → buf j = data (off + j)) :
    Ensures (readLoop i dst n rounds (off + tot) tot buf) v
      (fun r w => v = w ∧ r.1 = n ∧ ∀ j, j < n → r.2 j = data (off + j)) E := by
  induction rounds generalizing tot buf with
  | zero =>
    obtain rfl : tot = n := by omega
    exact .pure ⟨rfl, rfl, hbuf⟩
  | succ rounds ih =>
    unfold readLoop
    split
    · next hlt =>
      obtain ⟨b, hb, -⟩ := hst (off + tot) (by omega)
      refine (bmap_present hb ha).seq ?_
      rintro a w ⟨⟨rfl, hne⟩, rfl⟩
      rw [if_neg hne]
      apply Ensures.bind_get
      dsimp only
      rw [hdst, if_neg Bool.false_ne_true]
      have hpos : 0 < bsize - (off + tot) % bsize := by
        have : (off + tot) % bsize < bsize := Nat.mod_lt _ (by decide)
        omega
      obtain ⟨m, hm⟩ : ∃ m, m = min (n - tot) (bsize - (off + tot) % bsize) := ⟨_, rfl⟩
      rw [← hm, Nat.add_assoc]
      refine ih (tot + m) _ (by omega) (by omega) fun j hj => ?_
      unfold memmove
      split_ifs with hin
      · dsimp only
        rw [hst.block (m := m) (by omega) (by omega) hb (by omega)]
        congr 1
        omega
      · exact hbuf j (by omega)
    · next hge =>
      obtain rfl : tot = n := by omega
      exact .pure ⟨rfl, rfl, hbuf⟩

def readCount (size off n : Nat) : Nat := if 2 ^ 32 ≤ off + n then 0 else min n (size - off)

section ReadCount

variable {size : Nat} {off n : UInt32}

theorem wraps_iff : off + n < off ↔ 2 ^ 32 ≤ off.toNat + n.toNat := by
  have hoff := off.toNat_lt
  have hn := n.toNat_lt
  rw [UInt32.lt_iff_toNat_lt, UInt32.toNat_add]
  omega

theorem readCount_bad (h : size < off.toNat ∨ off + n < off) :
    readCount size off.toNat n.toNat = 0 := by
  rw [wraps_iff] at h
  unfold readCount
  split_ifs <;> omega

theorem readCount_good (h : ¬(size < off.toNat ∨ off + n < off)) :
    (if size < (off + n).toNat then size - off.toNat else n.toNat) =
      readCount size off.toNat n.toNat := by
  rw [wraps_iff] at h
  rw [UInt32.toNat_add]
  unfold readCount
  split_ifs <;> omega

end ReadCount

theorem readi_eq (v : Vol) (i : Nat) (dst : Dst) (off n : UInt32) :
    readi i dst off n v = readLoop i dst (readCount (v.ip i).size off.toNat n.toNat)
      (readCount (v.ip i).size off.toNat n.toNat) off.toNat 0 (fun _ => 0) v := by
  show (if (v.ip i).size < off.toNat ∨ off + n < off then _ else _ : V _) v = _
  by_cases hbad : (v.ip i).size < off.toNat ∨ off + n < off
  · rw [if_pos hbad, readCount_bad hbad]
    rfl
  · rw [if_neg hbad, readCount_good hbad]

theorem readi_stores (hdst : ∀ tot m, dst.fails tot m = false) (ha : v.Active i) (off n : UInt32)
    (hst : v.Stores i (v.ip i).size data) :
    Ensures (readi i dst off n) v (fun r w => v = w ∧ r.1 = readCount (v.ip i).size off.toNat n.toNat ∧
      ∀ j, j < readCount (v.ip i).size off.toNat n.toNat → r.2 j = data (off.toNat + j)) E := by
  rw [Ensures, readi_eq]
  have hcount : readCount (v.ip i).size off.toNat n.toNat = 0 ∨
      off.toNat + readCount (v.ip i).size off.toNat n.toNat ≤ (v.ip i).size := by
    unfold readCount
    split_ifs <;> omega
  rcases hcount with h0 | hle
  · rw [h0]
    exact ⟨rfl, rfl, nofun⟩
  · exact readLoop_stores hdst _ _ 0 _ ha (Nat.zero_le _) le_rfl (hst.mono hle) nofun

theorem readDirent_loop {msg : String} {R : (Nat → UInt8) → Vol → Prop}
    (hoff : off + direntSize < 2 ^ 32) (hin : off + direntSize ≤ (v.ip i).size)
    (h : Ensures (readLoop i .kernel direntSize direntSize off 0 fun _ => 0) v
      (fun r w => if r.1 = direntSize then R r.2 w else E msg w) E) :
    Ensures (readDirent i off msg) v R E := by
  have hd : direntSize = 16 := rfl
  have ho : (UInt32.ofNat off).toNat = off := by
    rw [UInt32.toNat_ofNat', Nat.mod_eq_of_lt (by omega)]
  have hcount : readCount (v.ip i).size off direntSize = direntSize := by
    unfold readCount
    rw [if_neg (by omega)]
    omega
  have hread : Ensures (readi i .kernel (.ofNat off) (.ofNat direntSize)) v
      (fun r w => if r.1 = direntSize then R r.2 w else E msg w) E := by
    rw [Ensures, readi_eq, ho, show (UInt32.ofNat direntSize).toNat = direntSize from rfl, hcount]
    exact h
  unfold readDirent
  refine hread.seq ?_
  rintro ⟨r, de⟩ w hr
  dsimp only at hr ⊢
  by_cases he : r = direntSize
  · rw [if_pos he] at hr
    rw [if_neg (not_not.mpr he)]
    exact .pure hr
  · rw [if_neg he] at hr
    rw [if_pos he]
    exact .throw hr

theorem readDirent_stores (ha : v.Active i) {msg : String} (hoff : off + direntSize < 2 ^ 32)
    (hin : off + direntSize ≤ (v.ip i).size) (hst : v.Stores i (off + direntSize) data) :
    Ensures (readDirent i off msg) v
      (fun de w => v = w ∧ ∀ j, j < direntSize → de j = data (off + j)) E := by
  refine readDirent_loop hoff hin ?_
  refine (readLoop_stores (fun _ _ => rfl) _ _ 0 _ ha (Nat.zero_le _) le_rfl hst nofun).post ?_
  rintro ⟨r, de⟩ w ⟨rfl, rfl, hde⟩
  rw [if_pos rfl]
  exact ⟨rfl, hde⟩

theorem sameBytes_iff (s t : CName) (n k : Nat) :
    sameBytes s t n k = true ↔ ∀ j, j < n → (∀ m, m < j → s (k + m) ≠ 0) → s (k + j) = t (k + j) := by
  induction n generalizing k with
  | zero => simp [sameBytes]
  | succ n ih =>
    unfold sameBytes
    split_ifs with hne hzero
    · simp only [false_iff, not_forall]
      exact ⟨0, Nat.succ_pos n, nofun, hne⟩
    · simp only [true_iff]
      rintro (_ | j) hj hm
      · exact not_not.mp hne
      · exact absurd hzero (hm 0 (Nat.succ_pos j))
    · rw [ih]
      have hshift : ∀ m, k + 1 + m = k + (m + 1) := by omega
      simp only [hshift]
      refine ⟨fun h => ?_, fun h j hj hm => h (j + 1) (by omega) ?_⟩
      · rintro (_ | j) hj hm
        · exact not_not.mp hne
        · exact h j (by omega) fun m hmj => hm (m + 1) (by omega)
      · rintro (_ | m) hmj
        · exact hzero
        · exact hm m (by omega)

theorem namecmp_congr {s t t' : CName} (h : ∀ k, k < dirsiz → t k = t' k) : namecmp s t = namecmp s t' := by
  rw [Bool.eq_iff_iff, namecmp, namecmp, sameBytes_iff, sameBytes_iff]
  simp only [Nat.zero_add]
  exact forall_congr' fun j => forall_congr' fun hj => by rw [h j hj]

theorem direntInum_direntBytes (inum : Nat) (name : CName) (h : inum < 2 ^ 16) :
    direntInum (direntBytes inum name) = inum := getLE_putLE _ _ _ _ (by omega)

theorem direntName_direntBytes (inum : Nat) (name : CName) : direntName (direntBytes inum name) = name := by
  funext k
  unfold direntName direntBytes
  rw [putLE_outside _ _ _ _ _ (by omega), if_neg (by omega), Nat.add_sub_cancel]

def direntAt (data : Nat → UInt8) (e : Nat) : Nat → UInt8 := fun j => data (e * direntSize + j)

def Matches (name : CName) (de : Nat → UInt8) : Prop :=
  direntInum de ≠ 0 ∧ namecmp name (direntName de) = true

theorem matches_congr (name : CName) {de : Nat → UInt8} (de' : Nat → UInt8) (h : ∀ j, j < direntSize → de j = de' j) :
    direntInum de = direntInum de' ∧ (Matches name de ↔ Matches name de') := by
  have hd : direntSize = 16 := rfl
  have hinum : direntInum de = direntInum de' := getLE_congr fun k _ hk => h k (by omega)
  have hz : dirsiz = 14 := rfl
  have hname : namecmp name (direntName de) = namecmp name (direntName de') :=
    namecmp_congr fun k hk => h (k + 2) (by omega)
  exact ⟨hinum, by rw [Matches, Matches, hinum, hname]⟩

variable {dp lim rounds : Nat} {name : CName} {Q : Option (Nat × Nat) → Vol → Prop}

section Lookup

variable (ha : v.Active dp) (hsize : (v.ip dp).size < 2 ^ 32) (hst : v.Stores dp lim data)
include ha hsize hst

theorem lookupLoop_round {e : Nat} (hlim : (e + 1) * direntSize ≤ lim)
    (hin : (e + 1) * direntSize ≤ (v.ip dp).size)
    (hhit : Matches name (direntAt data e) → Ensures (iget (direntInum (direntAt data e))) v
      (fun _ w => Q (some (direntInum (direntAt data e), e * direntSize)) w) E)
    (hmiss : ¬ Matches name (direntAt data e) → Ensures (lookupLoop dp name rounds ((e + 1) * direntSize)) v Q E) :
    Ensures (lookupLoop dp name (rounds + 1) (e * direntSize)) v Q E := by
  have hd : direntSize = 16 := rfl
  unfold lookupLoop
  apply Ensures.bind_get
  rw [if_pos (by rw [hd] at hin ⊢; omega)]
  apply Ensures.bind
  have hlim' : e * direntSize + direntSize ≤ lim := by rw [hd] at hlim ⊢; omega
  refine (readDirent_stores ha (by rw [hd] at hin ⊢; omega) (by rw [hd] at hin ⊢; omega)
    (hst.mono hlim')).post ?_
  rintro de w ⟨rfl, hde⟩
  obtain ⟨hinum, hiff⟩ := matches_congr name (direntAt data e) hde
  split
  · next hm =>
    rw [hinum]
    exact (hhit (hiff.mp hm)).seq fun _ _ hq => .pure hq
  · next hm =>
    have hnext : e * direntSize + direntSize = (e + 1) * direntSize := by ring
    rw [hnext]
    exact hmiss fun h => hm (hiff.mpr h)

theorem lookupLoop_skip {a c : Nat} (hac : a ≤ c) (hlim : c * direntSize ≤ lim)
    (hin : c * direntSize ≤ (v.ip dp).size) (hno : ∀ e, a ≤ e → e < c → ¬ Matches name (direntAt data e))
    (h : Ensures (lookupLoop dp name rounds (c * direntSize)) v Q E) :
    Ensures (lookupLoop dp name (rounds + (c - a)) (a * direntSize)) v Q E := by
  have hd : direntSize = 16 := rfl
  induction hn : c - a generalizing a with
  | zero =>
    obtain rfl : a = c := by omega
    exact h
  | succ n ih =>
    refine lookupLoop_round ha hsize hst ?_ ?_ (fun hm => absurd hm (hno a le_rfl (by omega)))
      fun _ => ih (by omega) (fun e he => hno e (by omega)) (by omega)
    · rw [hd] at hlim ⊢
      omega
    · rw [hd] at hin ⊢
      omega

end Lookup

theorem lookupLoop_end (hoff : (v.ip dp).size ≤ off) (h : Q none v) :
    Ensures (lookupLoop dp name rounds off) v Q E := by
  cases rounds with
  | zero => exact h
  | succ rounds =>
    unfold lookupLoop
    apply Ensures.bind_get
    rw [if_neg (not_lt.mpr hoff)]
    exact .pure h

section Hole

variable {k : Nat} (h : Sound (some i) v) (ha : v.Active i) (ht : (v.ip i).type ≠ .free) (hk : k < ndirect)
  (h0 : (v.ip i).addrs k = 0)
include h ha ht hk h0

theorem bmap_hole : Ensures (bmap i k) v
    (fun a w => (a = 0 ∧ v = w ∧ ∀ c, c < v.size → v.bit c = true) ∨
      (a ≠ 0 ∧ v.bit a = false ∧ w = v.given i k a)) E := by
  unfold bmap bmapBy addrBlockBy
  rw [if_pos hk]
  apply Ensures.bind_get
  rw [if_pos h0]
  refine (balloc_ensures v).seq ?_
  rintro b w (⟨rfl, rfl, hfull⟩ | ⟨-, hbit, rfl⟩)
  · exact .inl ⟨rfl, rfl, hfull⟩
  · have hb0 := (h.fresh hbit).2.1
    rw [if_neg hb0]
    exact .inr ⟨hb0, hbit, rfl⟩

theorem readDirent_hole {msg : String} (hoff : off + direntSize < 2 ^ 32)
    (hin : off + direntSize ≤ (v.ip i).size) (hko : off / bsize = k) (hfit : off % bsize + direntSize ≤ bsize) :
    Ensures (readDirent i off msg) v
      (fun de w => ∃ b, v.bit b = false ∧ w = v.given i k b ∧ ∀ j, j < direntSize → de j = 0)
      (fun e _ => e = msg ∧ ∀ c, c < v.size → v.bit c = true) := by
  refine readDirent_loop hoff hin ?_
  change Ensures (readLoop i .kernel direntSize (15 + 1) off 0 fun _ => 0) v _ _
  unfold readLoop
  rw [if_pos (by decide), hko]
  refine (bmap_hole h ha ht hk h0).seq ?_
  rintro a w (⟨rfl, rfl, hfull⟩ | ⟨ha0, hbit, rfl⟩)
  · exact ⟨rfl, hfull⟩
  · have hzero : (v.given i k a).blk a = fun _ => 0 := update_self _ _ _
    have hm : min (direntSize - 0) (bsize - off % bsize) = direntSize := by omega
    rw [if_neg ha0]
    apply Ensures.bind_get
    dsimp only
    rw [hm, hzero, if_neg (by simp [Dst.fails]), readLoop_done _ _ _ (by simp)]
    refine .pure ?_
    rw [if_pos (by simp)]
    refine ⟨a, hbit, rfl, fun j hj => ?_⟩
    simp [memmove]

theorem stores_given {b : Nat} (hbit : v.bit b = false) (hst : v.Stores i (k * bsize) data)
    (hzero : ∀ off, k * bsize ≤ off → off < (k + 1) * bsize → data off = 0) :
    (v.given i k b).Stores i ((k + 1) * bsize) data := by
  have hb : bsize = 1024 := rfl
  have hptr := h.ptr_given ha ht hk.le h0 hbit
  have hblk : (v.given i k b).blk = update v.blk b fun _ => 0 := rfl
  intro off hoff
  rw [hptr, hblk]
  by_cases hlt : off < k * bsize
  · obtain ⟨c, hc, hdata⟩ := hst off hlt
    have hne : (i, place (off / bsize)) ≠ (i, .addr k) := fun he => by
      have hbn := (place_eq_addr hk).mp (Prod.mk.inj he).2
      rw [hb] at hlt hbn
      omega
    refine ⟨c, by rw [update_of_ne hne, hc], ?_⟩
    rw [update_of_ne, hdata]
    rintro rfl
    exact (h.fresh hbit).2.2 _ hc
  · have hbn : off / bsize = k := by
      rw [hb] at hlt hoff ⊢
      omega
    refine ⟨b, by rw [hbn, place_direct hk, update_self], ?_⟩
    rw [update_self, hzero off (by omega) hoff]

end Hole

/-- The same inodes and blocks; only the inode table has changed. -/
structure SameFiles (v w : Vol) : Prop where
  cur : ∀ j, w.cur j = v.cur j
  blk : w.blk = v.blk
  bit : w.bit = v.bit
  size : w.size = v.size
  nmeta : w.nmeta = v.nmeta
  ninodes : w.ninodes = v.ninodes

theorem SameFiles.trans {u w : Vol} (h : SameFiles v w) (h' : SameFiles w u) : SameFiles v u :=
  ⟨fun j => (h'.cur j).trans (h.cur j), h'.blk.trans h.blk, h'.bit.trans h.bit, h'.size.trans h.size,
    h'.nmeta.trans h.nmeta, h'.ninodes.trans h.ninodes⟩

theorem SameFiles.ptr {w : Vol} (h : SameFiles v w) : w.ptr = v.ptr := by
  funext x
  simp only [Vol.ptr, h.cur, h.blk]

theorem SameFiles.setEntry (e : Entry) (h : (v.setEntry i e).cur i = v.cur i) :
    SameFiles v (v.setEntry i e) := by
  refine ⟨fun j => ?_, rfl, rfl, rfl, rfl, rfl⟩
  by_cases hj : j = i
  · rw [hj, h]
  · have hent : (v.setEntry i e).itable j = v.itable j := update_of_ne hj _ _
    simp only [Vol.cur, Vol.Active, Vol.ip, hent]
    rfl

theorem iget_opens (hlow : v.entries < Inodes.ninode) :
    Ensures (iget i) v (fun _ w => SameFiles v w ∧ 0 < (w.itable i).ref ∧
      ∀ j, j ≠ i → (w.itable j).ref = (v.itable j).ref) E := by
  have hother : ∀ e j, j ≠ i → ((v.setEntry i e).itable j).ref = (v.itable j).ref := fun e j hj =>
    congrArg Entry.ref (update_of_ne hj _ _)
  unfold iget
  apply Ensures.bind_get
  dsimp only
  split_ifs with href hfull
  · refine .set ⟨SameFiles.setEntry _ ?_, by simp [Vol.setEntry], hother _⟩
    simp [Vol.cur, Vol.Active, Vol.ip, Vol.setEntry, href]
  · exact absurd hfull (not_le.mpr hlow)
  · refine .set ⟨SameFiles.setEntry _ ?_, by simp [Vol.setEntry], hother _⟩
    simp [Vol.cur, Vol.Active, Vol.setEntry, href]

theorem ilock_opens (href : 0 < (v.itable i).ref) (ht : (v.cur i).type ≠ .free) :
    Ensures (ilock i) v (fun _ w => SameFiles v w ∧ w.Active i ∧ w.ip i = v.cur i ∧
      ∀ j, (w.itable j).ref = (v.itable j).ref) E := by
  unfold ilock
  apply Ensures.bind_get
  dsimp only
  rw [if_neg (by omega)]
  by_cases hvalid : (v.itable i).valid = true
  · have ha : v.Active i := ⟨href, hvalid⟩
    rw [if_pos hvalid]
    exact .pure ⟨⟨fun _ => rfl, rfl, rfl, rfl, rfl, rfl⟩, ha, (Vol.cur_active ha).symm, fun _ => rfl⟩
  · have hcur : v.cur i = v.dinode i := if_neg fun ha => hvalid ha.2
    rw [if_neg hvalid, if_neg (hcur ▸ ht)]
    apply Ensures.bind_set
    apply Ensures.pure
    have ha : (v.setEntry i { v.itable i with
        valid := true
        ip := v.dinode i }).Active i := by simpa [Vol.Active, Vol.setEntry] using href
    have hip : (v.setEntry i { v.itable i with
        valid := true
        ip := v.dinode i }).ip i = v.cur i := by simp [Vol.ip, Vol.setEntry, hcur]
    refine ⟨SameFiles.setEntry _ ((Vol.cur_active ha).trans hip), ha, hip, fun j => ?_⟩
    obtain rfl | hj := eq_or_ne j i
    · simp [Vol.setEntry]
    · exact congrArg Entry.ref (update_of_ne hj _ _)

theorem Vol.entries_le_one (h : ∀ j, j ≠ i → (v.itable j).ref = 0) : v.entries ≤ 1 := by
  have hle : v.entries ≤ (List.range v.ninodes).countP fun j => j == i := by
    refine List.countP_mono_left fun j _ hj => ?_
    by_contra hne
    have hz := h j (by simpa using hne)
    simp [hz] at hj
  exact hle.trans (List.nodup_iff_count_le_one.mp List.nodup_range i)

end Xv6.Blocks
