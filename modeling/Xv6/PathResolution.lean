import Xv6.Paths

namespace Xv6.Blocks

open Xv6.Lib Function
open Xv6.Inodes (FileType bsize direntSize rootino ninode)

variable {v w u : Vol} {s t : Fs} {i j ip next : Nat} {path : List UInt8} {name : CName}
  {E : String → Fs → Prop}

def Vol.find (v : Vol) (dp : Nat) (c : List UInt8) : Option Nat :=
  (Slots.lookup (v.table dp) c).map Prod.snd

def Vol.enter (v : Vol) (i : Nat) (c : List UInt8) : Option Nat :=
  if (v.cur i).type = .dir then v.find i c else none

def Vol.resolve (v : Vol) (i : Nat) (cs : List (List UInt8)) : Option Nat := cs.foldlM v.enter i

/-- The directory that all elements but the last one lead to. -/
def Vol.resolveParent (v : Vol) (i : Nat) (cs : List (List UInt8)) : Option Nat :=
  if cs = [] then none else (v.resolve i cs.dropLast).filter fun j => (v.cur j).type = .dir

theorem Vol.resolve_cons (v : Vol) (i : Nat) (c : List UInt8) (cs : List (List UInt8)) :
    v.resolve i (c :: cs) = (v.enter i c).bind (v.resolve · cs) := rfl

theorem Vol.resolveParent_single (v : Vol) (i : Nat) (c : List UInt8) :
    v.resolveParent i [c] = if (v.cur i).type = .dir then some i else none := by
  rw [Vol.resolveParent, if_neg (List.cons_ne_nil _ _)]
  by_cases hi : (v.cur i).type = .dir <;> simp [Vol.resolve, Option.filter, hi]

theorem Vol.resolveParent_cons (v : Vol) (i : Nat) (c : List UInt8) {cs : List (List UInt8)}
    (hcs : cs ≠ []) : v.resolveParent i (c :: cs) = (v.enter i c).bind (v.resolveParent · cs) := by
  rw [Vol.resolveParent, if_neg (List.cons_ne_nil _ _), List.dropLast_cons_of_ne_nil hcs, v.resolve_cons]
  simp only [Vol.resolveParent, if_neg hcs]
  cases v.enter i c <;> rfl

/-- A file system in which paths can be followed: directories consist of whole entries, which name
allocated inodes, and an inode that nothing refers to has a link. -/
structure Walkable (v : Vol) : Prop where
  sound : Sound none v
  root : (v.cur rootino).type ≠ .free
  whole : ∀ i, (v.cur i).type = .dir → (v.cur i).size % direntSize = 0
  named : ∀ i c j, v.enter i c = some j → (v.cur j).type ≠ .free
  linked : ∀ i, (v.cur i).type ≠ .free → (v.cur i).nlink = 0 → 0 < (v.itable i).ref

/-- Directories consist of whole entries, and an inode that nothing refers to has a link. An entry may
name a free inode. -/
structure Steady (v : Vol) : Prop where
  sound : Sound none v
  whole : ∀ i, (v.cur i).type = .dir → (v.cur i).size % direntSize = 0
  linked : ∀ i, (v.cur i).type ≠ .free → (v.cur i).nlink = 0 → 0 < (v.itable i).ref

theorem Walkable.steady (h : Walkable v) : Steady v := ⟨h.sound, h.whole, h.linked⟩

theorem SameFiles.table (h : SameFiles v w) (dp : Nat) : w.table dp = v.table dp := (h.file dp).table

/-- The files are those of `v`, no inode is locked, and there is one reference to `ip` more. -/
structure At (v : Vol) (ip : Nat) (s : Fs) : Prop extends SameFiles v s.vol, Gained ip v s.vol where
  sound : Sound none s.vol
  unlocked : s.locked = fun _ => false

structure Back (v : Vol) (s : Fs) : Prop extends SameFiles v s.vol, Kept v s.vol where
  sound : Sound none s.vol
  unlocked : s.locked = fun _ => false

structure Holding (v : Vol) (ip : Nat) (s : Fs) : Prop extends SameFiles v s.vol, Gained ip v s.vol where
  sound : Sound none s.vol
  here : s.vol.Active ip
  locked : s.locked = update (fun _ => false) ip true

/-- The inode is free, and a path may lead to it. -/
def Vol.Dangles (v : Vol) (start j : Nat) : Prop :=
  (v.cur j).type = .free ∧ (j = start ∨ ∃ i c, v.enter i c = some j)

/-- The panic of `iget`; with the inodes of `v` and one more in use, no entry is left. -/
def Vol.Crowded (v : Vol) (msg : String) (_ : Fs) : Prop :=
  msg = "iget: no inodes" ∧ ninode ≤ v.entries + 1

def Vol.Stuck (v : Vol) (start : Nat) (msg : String) (s : Fs) : Prop :=
  v.Crowded msg s ∨ (msg = "ilock: no type" ∧ ∃ j, v.Dangles start j)

theorem Walkable.crowded {start : Nat} {msg : String} (hv : Walkable v)
    (ht : (v.cur start).type ≠ .free) (h : v.Stuck start msg s) : v.Crowded msg s := by
  rcases h with h | ⟨-, j, hfree, rfl | ⟨i, c, hj⟩⟩
  · exact h
  · exact absurd hfree ht
  · exact absurd hfree (hv.named i c j hj)

theorem countP_or_le (p q : Nat → Bool) (l : List Nat) :
    l.countP (fun j => p j || q j) ≤ l.countP p + l.countP q := by
  induction l with
  | nil => exact Nat.le_refl 0
  | cons j l ih =>
    simp only [List.countP_cons]
    cases p j <;> cases q j <;> simp only [Bool.or_true, Bool.or_false, if_true, Bool.false_eq_true, if_false] <;>
      omega

theorem Gained.entries_le (h : Gained i v w) (hn : w.ninodes = v.ninodes) :
    w.entries ≤ v.entries + 1 := by
  have hone : (List.range v.ninodes).countP (· == i) ≤ 1 :=
    List.nodup_iff_count_le_one.mp List.nodup_range i
  have hor : w.entries ≤ (List.range v.ninodes).countP (fun j => decide (0 < (v.itable j).ref) || j == i) := by
    rw [Vol.entries, hn]
    refine List.countP_mono_left fun j _ hj => ?_
    rw [decide_eq_true_eq, h.ref] at hj
    rw [Bool.or_eq_true, decide_eq_true_eq, beq_iff_eq]
    split_ifs at hj with hji
    · exact .inr hji
    · exact .inl hj
  exact hor.trans ((countP_or_le _ _ _).trans (Nat.add_le_add_left hone _))

theorem lockInode_ensures (h : At v ip s) :
    Ensures (lockInode ip) s (fun _ t => Holding v ip t)
      (fun e _ => e = "ilock: no type" ∧ (v.cur ip).type = .free) := by
  have href : 0 < (s.vol.itable ip).ref := by
    rw [h.ref, if_pos rfl]
    exact Nat.succ_pos _
  unfold lockInode
  apply Ensures.bind_get
  rw [if_neg (by omega), if_neg (by rw [h.unlocked]; exact Bool.false_ne_true)]
  apply Ensures.bind_set
  apply Ensures.zoom
  refine (ilock_loaded h.sound ip).imp (fun _ w hw => ?_) fun e w he => ?_
  · refine ⟨h.toSameFiles.trans hw.toSameFiles, h.toGained.keep hw.toKept, hw.sound, hw.here, ?_⟩
    exact congrArg (update · ip true) h.unlocked
  · rcases he with ⟨-, hzero⟩ | ⟨he, hfree⟩
    · omega
    · exact ⟨he, h.cur ip ▸ hfree⟩

theorem iunlock_ensures (href : 0 < (s.vol.itable ip).ref) (hl : s.locked = update (fun _ => false) ip true) :
    Ensures (iunlock ip) s (fun _ t => t = ⟨s.vol, fun _ => false⟩) E := by
  have hmine : s.locked ip = true := by rw [hl, update_self]
  unfold iunlock
  apply Ensures.bind_get
  rw [if_neg (by rw [hmine]; simp only [Bool.true_eq_false, false_or]; omega)]
  apply Ensures.set
  have hfree : update s.locked ip false = fun _ => false := by
    rw [hl, update_idem, update_eq_self_iff]
  rw [Fs.setLocked, hfree]

theorem Holding.unlock (h : Holding v ip s) : Ensures (iunlock ip) s (fun _ t => At v ip t) E := by
  refine (iunlock_ensures h.here.1 h.locked).post ?_
  rintro _ _ rfl
  exact ⟨h.toSameFiles, h.toGained, h.sound, rfl⟩

theorem Steady.not_last (hv : Steady v) (hf : SameFile ip v w) (hw : Sound none w)
    (href : (v.itable ip).ref < (w.itable ip).ref) :
    ¬((w.itable ip).ref = 1 ∧ (w.itable ip).valid = true ∧ (w.itable ip).ip.nlink = 0) := by
  rintro ⟨hone, hvalid, hlink⟩
  have ha : w.Active ip := ⟨by omega, hvalid⟩
  have hlive := hw.live ip (Option.some_ne_none _) ha
  rw [← Vol.cur_active ha, hf.type] at hlive
  have hpos := hv.linked ip hlive (by rw [← hf.nlink, Vol.cur_active ha]; exact hlink)
  omega

theorem Steady.put (hv : Steady v) (h : At v ip s) : Ensures (onVol (iput ip)) s (fun _ t => Back v t) E := by
  have href := h.ref ip
  rw [if_pos rfl] at href
  apply Ensures.zoom
  refine (iput_closed h.sound (hv.not_last (h.toSameFiles.file ip) h.sound (by omega))).post fun _ w hw => ?_
  exact ⟨h.toSameFiles.trans hw.toSameFiles, h.toGained.lost hw.toLost, hw.sound, h.unlocked⟩

theorem Steady.unlockput (hv : Steady v) (h : Holding v ip s) :
    Ensures (iunlockput ip) s (fun _ t => Back v t) E := by
  exact h.unlock.seq fun _ t ht => hv.put ht

theorem Gained.exchange (h : Gained i v w) (h' : Gained next w u) {x : Vol} (h'' : Lost i u x) :
    Gained next v x := by
  have href : ∀ j, (x.itable j).ref = (v.itable j).ref + if j = next then 1 else 0 := by
    intro j
    rw [h''.ref, h'.ref, h.ref]
    omega
  refine ⟨href, fun j hj => h''.active j (h'.active j (h.active j hj)) ?_⟩
  have hpos := hj.1
  rw [href]
  omega

theorem Steady.advance (hv : Steady v) (h : Holding v ip s) (ho : Opened next s.vol w) :
    Ensures (iunlockput ip) { s with vol := w } (fun _ t => At v next t) E := by
  have hf := h.toSameFiles.trans ho.toSameFiles
  have href := ho.ref ip
  rw [h.ref, if_pos rfl] at href
  refine (iunlock_ensures (s := { s with vol := w }) (ho.active ip h.here).1 h.locked).seq ?_
  rintro _ _ rfl
  apply Ensures.zoom
  refine (iput_closed ho.sound (hv.not_last (hf.file ip) ho.sound (by omega))).post fun _ x hx => ?_
  exact ⟨hf.trans hx.toSameFiles, h.toGained.exchange ho.toGained hx.toLost, hx.sound, rfl⟩

theorem Holding.isDir (hv : Steady v) (h : Holding v ip s) (ht : (s.vol.ip ip).type = .dir) :
    IsDir s.vol ip := by
  have hcur : s.vol.ip ip = v.cur ip := by rw [← Vol.cur_active h.here, h.cur]
  refine ⟨h.sound, h.here, ht, ?_⟩
  rw [hcur] at ht ⊢
  exact hv.whole ip ht

theorem Steady.lookup (hv : Steady v) (h : Holding v ip s) (ht : (s.vol.ip ip).type = .dir) (name : CName) :
    Ensures (onVol (dirlookup ip name)) s (fun r t =>
      match r with
      | none => v.find ip (nameOf name) = none ∧ s = t
      | some x => v.find ip (nameOf name) = some x.1 ∧ ∃ w, t = { s with vol := w } ∧ Opened x.1 s.vol w)
      v.Crowded := by
  have hfind : (s.vol.lookup ip name).map Prod.fst = v.find ip (nameOf name) := by
    rw [Vol.lookup, Vol.find, h.toSameFiles.table, Option.map_map]
    rfl
  apply Ensures.zoom
  refine (dirlookup_table (h.isDir hv ht) name).imp ?_ fun _ _ he =>
    ⟨he.1.1, he.1.2.trans (h.toGained.entries_le h.ninodes)⟩
  rintro r w ⟨rfl, hw⟩
  rw [← hfind]
  cases hr : s.vol.lookup ip name with
  | none =>
    rw [hr] at hw
    exact ⟨rfl, congrArg (Fs.mk · s.locked) hw⟩
  | some x =>
    rw [hr] at hw
    exact ⟨rfl, w, rfl, hw⟩

def Reached (v : Vol) : Option Nat → Fs → Prop
  | none, s => Back v s
  | some j, s => At v j s

def Vol.walk (v : Vol) (parent : Bool) (i : Nat) (cs : List (List UInt8)) : Option Nat :=
  if parent then v.resolveParent i cs else v.resolve i cs

theorem Vol.walk_nil (v : Vol) (parent : Bool) (i : Nat) :
    v.walk parent i [] = if parent then none else some i := by
  cases parent <;> rfl

theorem Vol.walk_not_dir (parent : Bool) (h : (v.cur i).type ≠ .dir) (c : List UInt8)
    (cs : List (List UInt8)) : v.walk parent i (c :: cs) = none := by
  have henter : v.enter i c = none := if_neg h
  cases parent with
  | false =>
    show v.resolve i (c :: cs) = none
    rw [v.resolve_cons, henter, Option.bind_none]
  | true =>
    show v.resolveParent i (c :: cs) = none
    by_cases hcs : cs = []
    · rw [hcs, v.resolveParent_single, if_neg h]
    · rw [v.resolveParent_cons i c hcs, henter, Option.bind_none]

theorem Vol.walk_cons {parent : Bool} {cs : List (List UInt8)} (h : parent = true → cs ≠ [])
    (v : Vol) (i : Nat) (c : List UInt8) :
    v.walk parent i (c :: cs) = (v.enter i c).bind (v.walk parent · cs) := by
  cases parent with
  | false => exact v.resolve_cons i c cs
  | true => exact v.resolveParent_cons i c (h rfl)

theorem namexLoop_ensures (hv : Steady v) (parent : Bool) (rounds : Nat) (h : At v ip s)
    (hp : (0 : UInt8) ∉ path) (hr : path.length < rounds) (name : CName) :
    Ensures (namexLoop parent rounds ip path name) s
      (fun r t => r.1 = v.walk parent ip (components path) ∧ Reached v r.1 t ∧
        (parent = true → r.1 ≠ none → (components path).getLast? = some (nameOf r.2)))
      (v.Stuck ip) := by
  induction rounds generalizing ip s path name with
  | zero => omega
  | succ rounds ih =>
    rw [namexLoop]
    obtain ⟨hskip, hnil⟩ | ⟨rest, name', hskip, hcons, hrest, hlt, hend⟩ := skipelem_cases hp name
    · rw [hskip, hnil, v.walk_nil]
      dsimp only
      split_ifs with hpar
      · exact (hv.put h).seq fun _ t ht => .pure ⟨rfl, ht, fun _ hne => absurd rfl hne⟩
      · exact .pure ⟨rfl, h, fun hpar' => absurd hpar' hpar⟩
    · rw [hskip, hcons]
      dsimp only
      apply Ensures.bind
      refine (lockInode_ensures h).imp (fun _ t hl => ?_) fun e _ he => .inr ⟨he.1, ip, he.2, .inl rfl⟩
      have hcur : t.vol.ip ip = v.cur ip := by rw [← Vol.cur_active hl.here, hl.cur]
      apply Ensures.bind_get
      by_cases hdir : (t.vol.ip ip).type = .dir
      · rw [if_neg (not_not.mpr hdir)]
        rw [hcur] at hdir
        split_ifs with hlast
        · obtain ⟨hpar, hz⟩ := hlast
          refine hl.unlock.seq fun _ u hu => .pure ?_
          rw [hend.mp hz, hpar]
          refine ⟨?_, hu, fun _ _ => rfl⟩
          exact ((v.resolveParent_single ip (nameOf name')).trans (if_pos hdir)).symm
        · have hmore : parent = true → components rest ≠ [] :=
            fun hpar hnil => hlast ⟨hpar, hend.mpr hnil⟩
          have henter : v.enter ip (nameOf name') = v.find ip (nameOf name') := if_pos hdir
          rw [Vol.walk_cons hmore, henter]
          apply Ensures.bind
          refine (hv.lookup hl (hcur ▸ hdir) name').imp ?_ fun _ _ he => .inl he
          rintro (_ | ⟨next, off⟩) x hx
          · obtain ⟨hnone, rfl⟩ := hx
            refine (hv.unlockput hl).seq fun _ u hu => .pure ?_
            rw [hnone]
            exact ⟨rfl, hu, fun _ hne => absurd rfl hne⟩
          · obtain ⟨hsome, w, rfl, ho⟩ := hx
            refine (hv.advance hl ho).seq fun _ u hu => ?_
            rw [hsome, Option.bind_some]
            refine (ih hu hrest (by omega) name').imp ?_ ?_
            · rintro r y ⟨hr, hy, hlast⟩
              refine ⟨hr, hy, fun hpar hne => ?_⟩
              rw [List.getLast?_cons_of_ne_nil (hmore hpar)]
              exact hlast hpar hne
            · rintro e y (he | ⟨he, j, hfree, rfl | hj⟩)
              · exact .inl he
              · exact .inr ⟨he, j, hfree, .inr ⟨ip, _, henter.trans hsome⟩⟩
              · exact .inr ⟨he, j, hfree, .inr hj⟩
      · rw [if_pos hdir]
        rw [hcur] at hdir
        refine (hv.unlockput hl).seq fun _ u hu => .pure ?_
        exact ⟨(Vol.walk_not_dir parent hdir _ _).symm, hu, fun _ hne => absurd rfl hne⟩

def startOf (cwd : Nat) (path : List UInt8) : Nat := if path.headD 0 = slash then rootino else cwd

theorem namex_ensures (hv : Steady v) {cwd : Nat} (hcwd : 0 < (v.itable cwd).ref)
    (hp : (0 : UInt8) ∉ path) (parent : Bool) (name : CName) :
    Ensures (namex cwd path parent name) ⟨v, fun _ => false⟩
      (fun r t => r.1 = v.walk parent (startOf cwd path) (components path) ∧ Reached v r.1 t ∧
        (parent = true → r.1 ≠ none → (components path).getLast? = some (nameOf r.2)))
      (v.Stuck (startOf cwd path)) := by
  unfold namex startOf
  split_ifs with hroot
  · apply Ensures.bind
    apply Ensures.zoom
    refine (iget_opened hv.sound rootino).imp (fun _ w hw => ?_) fun _ _ he =>
      .inl ⟨he.1, Nat.le_succ_of_le he.2⟩
    have hat : At v rootino ⟨w, fun _ => false⟩ := ⟨hw.toSameFiles, hw.toGained, hw.sound, rfl⟩
    exact namexLoop_ensures hv parent _ hat hp (Nat.lt_succ_self _) name
  · apply Ensures.bind
    apply Ensures.zoom
    refine (idup_opened hv.sound hcwd).post fun _ w hw => ?_
    have hat : At v cwd ⟨w, fun _ => false⟩ := ⟨hw.toSameFiles, hw.toGained, hw.sound, rfl⟩
    exact namexLoop_ensures hv parent _ hat hp (Nat.lt_succ_self _) name

theorem namei_ensures (hv : Steady v) {cwd : Nat} (hcwd : 0 < (v.itable cwd).ref)
    (hp : (0 : UInt8) ∉ path) (name : CName) :
    Ensures (namei cwd path name) ⟨v, fun _ => false⟩
      (fun r s => r = v.resolve (startOf cwd path) (components path) ∧ Reached v r s)
      (v.Stuck (startOf cwd path)) := by
  unfold namei
  exact (namex_ensures hv hcwd hp false name).seq fun _ _ hr => .pure ⟨hr.1, hr.2.1⟩

theorem nameiparent_ensures (hv : Steady v) {cwd : Nat} (hcwd : 0 < (v.itable cwd).ref)
    (hp : (0 : UInt8) ∉ path) (name : CName) :
    Ensures (nameiparent cwd path name) ⟨v, fun _ => false⟩
      (fun r s => r.1 = v.resolveParent (startOf cwd path) (components path) ∧ Reached v r.1 s ∧
        (r.1 ≠ none → (components path).getLast? = some (nameOf r.2)))
      (v.Stuck (startOf cwd path)) :=
  (namex_ensures hv hcwd hp true name).post fun _ _ hr => ⟨hr.1, hr.2.1, hr.2.2 rfl⟩

section RootVol

variable (m : Nat)

theorem rootVol_root : (rootVol m).cur 1 = ⟨.dir, 1, 16, fun k => if k = 0 then 4 else 0⟩ := rootVol_cur m 1

theorem rootVol_table : (rootVol m).table 1 = [some (nameOf oneLetter, 60)] := by
  have hbyte : ∀ k, k < direntSize → (rootVol m).byteAt 1 k = direntBytes 60 oneLetter k := by
    intro k hk
    have hb : bsize = 1024 := rfl
    have hd : direntSize = 16 := rfl
    have hplace : place (k / bsize) = .addr 0 := by
      rw [Nat.div_eq_of_lt (by omega)]
      rfl
    rw [Vol.byteAt, rootVol_ptr, hplace, update_self, Nat.mod_eq_of_lt (by omega)]
    rfl
  have hslot : slotOf (direntAt ((rootVol m).byteAt 1) 0) = slotOf (direntBytes 60 oneLetter) := by
    refine slotOf_congr fun j hj => ?_
    rw [direntAt, Nat.zero_mul, Nat.zero_add, hbyte j hj]
  have hlen : 16 / direntSize = 1 := rfl
  rw [Vol.table, rootVol_root, hlen, List.range_one, List.map_singleton, hslot]
  decide

theorem rootVol_find {c : List UInt8} {j : Nat} (h : (rootVol m).find 1 c = some j) : j = 60 := by
  rw [Vol.find, rootVol_table] at h
  obtain ⟨⟨e, k⟩, hl, rfl⟩ := Option.map_eq_some_iff.mp h
  have hdis : Slots.Distinct [some (nameOf oneLetter, 60)] := by
    intro i j c a b hi hj
    have hlt := (List.getElem?_eq_some_iff.mp hi).1
    have hlt' := (List.getElem?_eq_some_iff.mp hj).1
    rw [List.length_singleton] at hlt hlt'
    omega
  have hget := (Slots.lookup_eq_some_iff hdis).mp hl
  rw [List.getElem?_singleton] at hget
  split at hget
  · cases hget
    rfl
  · cases hget

variable {m}

theorem rootVol_walkable (hpos : 0 < m) (hm : m < 64) : Walkable (rootVol m) := by
  have hdir : ∀ i, ((rootVol m).cur i).type = .dir → i = 1 := by
    intro i ht
    by_contra hi
    rw [rootVol_cur, rootVol_inode m hi] at ht
    split at ht <;> cases ht
  refine ⟨(rootVol_isDir hpos hm).sound, ?_, fun i ht => ?_, fun i c j hj => ?_, fun i ht hn => ?_⟩
  · rw [rootino, rootVol_root]
    decide
  · rw [hdir i ht, rootVol_root]
    rfl
  · obtain ⟨ht, hj⟩ := Option.ite_none_right_eq_some.mp hj
    rw [hdir i ht] at hj
    rw [rootVol_find m hj, rootVol_cur, rootVol_inode m (by decide)]
    decide
  · have hlinked : ((rootVol m).cur i).nlink = 1 := by
      by_cases hi : i = 1
      · rw [hi, rootVol_root]
      · rw [rootVol_cur, rootVol_inode m hi] at ht ⊢
        split_ifs at ht ⊢
        · rfl
        · exact absurd rfl ht
    omega

end RootVol

end Xv6.Blocks
