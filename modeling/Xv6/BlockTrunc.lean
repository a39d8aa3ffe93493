import Xv6.BlockOwner

namespace Xv6.Blocks

open Xv6.Lib Function

variable {v w : Vol} {i j k b : Nat} {f : Nat → Nat} {l : List Nat} {n : Dinode} {blk : Nat → Block}
  {E : String → Vol → Prop}

def nonzero (f : Nat → Nat) (k : Nat) : List Nat := ((List.range k).map f).filter (· ≠ 0)

theorem nonzero_succ (f : Nat → Nat) (k : Nat) :
    nonzero f (k + 1) = nonzero f k ++ if f k = 0 then [] else [f k] := by
  simp only [nonzero, List.range_succ, List.map_append, List.filter_append, List.map_cons, List.map_nil]
  split_ifs with h
  · simp [h]
  · simp [h]

theorem mem_nonzero : b ∈ nonzero f k ↔ b ≠ 0 ∧ ∃ m, m < k ∧ f m = b := by
  simp [nonzero, and_comm]

/-- The blocks an inode names, in the order in which `itrunc` frees them. -/
def Dinode.blocks (blk : Nat → Block) (n : Dinode) : List Nat :=
  nonzero n.addrs ndirect ++ if n.addrs ndirect = 0 then [] else
    nonzero (word (blk (n.addrs ndirect))) nindirect ++ [n.addrs ndirect]

theorem Dinode.mem_blocks (ht : n.type ≠ .free) : b ∈ n.blocks blk ↔ ∃ p, n.ptr blk p = some b := by
  constructor
  · intro hb
    rcases List.mem_append.mp hb with hd | hi
    · obtain ⟨h0, m, hm, rfl⟩ := mem_nonzero.mp hd
      exact ⟨.addr m, ptr_addr ht (by omega) h0 blk⟩
    · split_ifs at hi with hz
      · cases hi
      · rcases List.mem_append.mp hi with he | hlast
        · obtain ⟨h0, m, hm, rfl⟩ := mem_nonzero.mp he
          exact ⟨.entry m, if_pos ⟨ht, hz, hm, h0⟩⟩
        · obtain rfl := List.mem_singleton.mp hlast
          exact ⟨.addr ndirect, ptr_addr ht le_rfl hz blk⟩
  · rintro ⟨p, hp⟩
    refine List.mem_append.mpr ?_
    cases p with
    | addr m =>
      obtain ⟨⟨-, hm, h0⟩, hb⟩ := Option.ite_none_right_eq_some.mp hp
      obtain rfl := Option.some.inj hb
      rcases Nat.lt_or_eq_of_le hm with hlt | rfl
      · exact .inl (mem_nonzero.mpr ⟨h0, m, hlt, rfl⟩)
      · rw [if_neg h0]
        exact .inr (List.mem_append.mpr (.inr (List.mem_singleton.mpr rfl)))
    | entry m =>
      obtain ⟨⟨-, hz, hm, h0⟩, hb⟩ := Option.ite_none_right_eq_some.mp hp
      rw [if_neg hz]
      exact .inr (List.mem_append.mpr (.inl (mem_nonzero.mpr ⟨Option.some.inj hb ▸ h0, m, hm,
        Option.some.inj hb⟩)))

def Vol.cleared (v : Vol) (l : List Nat) : Vol := { v with bit := fun b => v.bit b && !l.contains b }

theorem Vol.cleared_nil (v : Vol) : v.cleared [] = v := by
  unfold Vol.cleared
  congr
  funext b
  simp

theorem bfree_cleared (hb : v.bit b = true) (hl : b ∉ l) (i : Nat) (n : Dinode) :
    Ensures (bfree b) ((v.cleared l).setIp i n) (fun _ w => w = (v.cleared (l ++ [b])).setIp i n) E := by
  have hset : ((v.cleared l).setIp i n).bit b = true := by simp [Vol.setIp, Vol.setEntry, Vol.cleared, hb, hl]
  unfold bfree
  apply Ensures.bind_get
  rw [if_neg (by simp [hset])]
  apply Ensures.set
  simp only [Vol.setIp, Vol.setEntry, Vol.cleared, Vol.mk.injEq, true_and, and_true]
  funext c
  by_cases hc : c = b
  · simp [hc]
  · simp [hc]

theorem Vol.setIp_setIp (v : Vol) (i : Nat) (n m : Dinode) : (v.setIp i n).setIp i m = v.setIp i m := by
  simp [Vol.setIp, Vol.setEntry]

def dropAddrs (a : Nat → Nat) (k : Nat) : Nat → Nat := fun m => if m < k then 0 else a m

theorem dropAddrs_self (a : Nat → Nat) (k : Nat) : dropAddrs a k k = a k := if_neg (lt_irrefl k)

theorem dropAddrs_succ (a : Nat → Nat) (k : Nat) :
    dropAddrs a (k + 1) = update (dropAddrs a k) k 0 := by
  funext m
  rw [update_apply]
  unfold dropAddrs
  split_ifs <;> omega

def Vol.dropped (v : Vol) (i : Nat) (l : List Nat) (k : Nat) : Vol :=
  (v.cleared l).setIp i { v.ip i with addrs := dropAddrs (v.ip i).addrs k }

theorem Vol.dropped_blk (v : Vol) (i : Nat) (l : List Nat) (k : Nat) : (v.dropped i l k).blk = v.blk := rfl

theorem Vol.dropped_addrs (v : Vol) (i : Nat) (l : List Nat) (k : Nat) :
    ((v.dropped i l k).ip i).addrs k = (v.ip i).addrs k := by
  rw [Vol.dropped, Vol.setIp_ip_self]
  exact dropAddrs_self _ k

theorem setAddr_dropped (v : Vol) (i : Nat) (l : List Nat) (k : Nat) :
    Ensures (setAddr i k 0) (v.dropped i l k) (fun _ w => w = v.dropped i l (k + 1)) E := by
  apply Ensures.modify
  rw [Vol.dropped, Vol.setIp_setIp, Vol.setIp_ip_self, Vol.dropped, dropAddrs_succ]

theorem Vol.dropped_succ (h : (v.ip i).addrs k = 0) (l : List Nat) :
    v.dropped i l (k + 1) = v.dropped i l k := by
  rw [Vol.dropped, Vol.dropped, dropAddrs_succ]
  have hzero : dropAddrs (v.ip i).addrs k k = 0 := (dropAddrs_self _ k).trans h
  rw [← hzero, update_eq_self]

theorem Vol.dropped_zero (v : Vol) (i : Nat) : v.dropped i [] 0 = v := by
  have hdrop : dropAddrs (v.ip i).addrs 0 = (v.ip i).addrs := rfl
  rw [Vol.dropped, v.cleared_nil, hdrop]
  simp [Vol.setIp, Vol.setEntry, Vol.ip]

section Owned

variable (h : v.BlocksOwned) (ha : v.Active i) (ht : (v.ip i).type ≠ .free)

include ha ht

theorem not_mem_directs (hk : k ≤ ndirect) {p : Place} (hp : ∀ m, m < k → p ≠ .addr m)
    (hb : ∀ q, v.ptr (i, q) = some b → q = p) : b ∉ nonzero (v.ip i).addrs k := by
  intro hmem
  obtain ⟨h0, m, hm, rfl⟩ := mem_nonzero.mp hmem
  have hm' : v.ptr (i, .addr m) = some ((v.ip i).addrs m) := by
    rw [Vol.ptr_active ha, Dinode.ptr_addr ht (by omega) h0]
  exact hp m hm (hb _ hm').symm

theorem ptr_entry_eq_word (hind : (v.ip i).addrs ndirect ≠ 0) (hk : k < nindirect)
    (h0 : word (v.blk ((v.ip i).addrs ndirect)) k ≠ 0) :
    v.ptr (i, .entry k) = some (word (v.blk ((v.ip i).addrs ndirect)) k) := by
  rw [Vol.ptr_active ha]
  exact if_pos ⟨ht, hind, hk, h0⟩

theorem not_mem_entries (hind : (v.ip i).addrs ndirect ≠ 0) (hk : k ≤ nindirect) {p : Place}
    (hp : ∀ m, m < k → p ≠ .entry m) (hb : ∀ q, v.ptr (i, q) = some b → q = p) :
    b ∉ nonzero (word (v.blk ((v.ip i).addrs ndirect))) k := by
  intro hmem
  obtain ⟨h0, m, hm, rfl⟩ := mem_nonzero.mp hmem
  exact hp m hm (hb _ (ptr_entry_eq_word ha ht hind (by omega) h0)).symm

include h

theorem addr_owned (hk : k ≤ ndirect) (h0 : (v.ip i).addrs k ≠ 0) :
    v.bit ((v.ip i).addrs k) = true ∧ ∀ p, v.ptr (i, p) = some ((v.ip i).addrs k) → p = .addr k := by
  have hp : v.ptr (i, .addr k) = some ((v.ip i).addrs k) := by
    rw [Vol.ptr_active ha, Dinode.ptr_addr ht hk h0]
  exact ⟨h.used_of_ptr hp, fun p hp' => (Prod.mk.inj (h.once hp' hp)).2⟩

theorem entry_owned (hind : (v.ip i).addrs ndirect ≠ 0) (hk : k < nindirect)
    (h0 : word (v.blk ((v.ip i).addrs ndirect)) k ≠ 0) :
    v.bit (word (v.blk ((v.ip i).addrs ndirect)) k) = true ∧
      ∀ p, v.ptr (i, p) = some (word (v.blk ((v.ip i).addrs ndirect)) k) → p = .entry k := by
  have hp := ptr_entry_eq_word ha ht hind hk h0
  exact ⟨h.used_of_ptr hp, fun p hp' => (Prod.mk.inj (h.once hp' hp)).2⟩

theorem truncDirects_ensures :
    Ensures ((List.range ndirect).forM (truncDirect i)) v
      (fun _ w => w = v.dropped i (nonzero (v.ip i).addrs ndirect) ndirect) E := by
  refine Ensures.forM_range (truncDirect i) (fun k w => w = v.dropped i (nonzero (v.ip i).addrs k) k) _
    ?_ ?_
  · rintro k _ hk rfl
    unfold truncDirect
    apply Ensures.bind_get
    rw [v.dropped_addrs, nonzero_succ]
    by_cases h0 : (v.ip i).addrs k = 0
    · rw [if_neg (not_not.mpr h0), if_pos h0, List.append_nil, Vol.dropped_succ h0]
      exact .pure rfl
    · rw [if_pos h0, if_neg h0]
      obtain ⟨hbit, hown⟩ := addr_owned h ha ht (Nat.le_of_lt hk) h0
      have hnew : (v.ip i).addrs k ∉ nonzero (v.ip i).addrs k :=
        not_mem_directs ha ht (Nat.le_of_lt hk) (fun m hm he => by cases he; omega) hown
      refine (bfree_cleared hbit hnew i _).seq ?_
      rintro _ _ rfl
      exact setAddr_dropped v i _ k
  · exact (v.dropped_zero i).symm

theorem truncIndirect_ensures : Ensures (truncIndirect i) (v.dropped i (nonzero (v.ip i).addrs ndirect) ndirect)
    (fun _ w => w = v.dropped i ((v.ip i).blocks v.blk) (ndirect + 1)) E := by
  unfold truncIndirect
  apply Ensures.bind_get
  dsimp only
  rw [v.dropped_addrs, Dinode.blocks]
  by_cases hind : (v.ip i).addrs ndirect = 0
  · rw [if_neg (not_not.mpr hind), if_pos hind, List.append_nil, Vol.dropped_succ hind]
    exact .pure rfl
  · rw [if_pos hind, if_neg hind]
    obtain ⟨hbit, hown⟩ := addr_owned h ha ht le_rfl hind
    refine (Ensures.forM_range (truncEntry ((v.ip i).addrs ndirect)) (fun k w => w =
      v.dropped i (nonzero (v.ip i).addrs ndirect ++
        nonzero (word (v.blk ((v.ip i).addrs ndirect))) k) ndirect) _ ?_ ?_).seq ?_
    · rintro k _ hk rfl
      unfold truncEntry
      apply Ensures.bind_get
      rw [v.dropped_blk, nonzero_succ, ← List.append_assoc]
      by_cases h0 : word (v.blk ((v.ip i).addrs ndirect)) k = 0
      · rw [if_neg (not_not.mpr h0), if_pos h0, List.append_nil]
        exact .pure rfl
      · rw [if_pos h0, if_neg h0]
        obtain ⟨hbit, hown⟩ := entry_owned h ha ht hind hk h0
        refine bfree_cleared hbit ?_ i _
        rw [List.mem_append, not_or]
        exact ⟨not_mem_directs (p := .entry k) ha ht le_rfl nofun hown,
          not_mem_entries ha ht hind (Nat.le_of_lt hk) (fun m hm he => by cases he; omega) hown⟩
    · exact congrArg (v.dropped i · ndirect) (List.append_nil _).symm
    · rintro _ _ rfl
      refine (bfree_cleared hbit ?_ i _).seq ?_
      · rw [List.mem_append, not_or]
        exact ⟨not_mem_directs ha ht le_rfl (fun m hm he => by cases he; omega) hown,
          not_mem_entries (p := .addr ndirect) ha ht hind le_rfl nofun hown⟩
      · rintro _ _ rfl
        rw [List.append_assoc]
        exact setAddr_dropped v i _ ndirect

end Owned

def Dinode.emptied (n : Dinode) : Dinode := { n with size := 0, addrs := dropAddrs n.addrs (ndirect + 1) }

def Vol.emptied (v : Vol) (i : Nat) : Vol :=
  { (v.cleared ((v.ip i).blocks v.blk)).setIp i (v.ip i).emptied with
    dinode := update v.dinode i (v.ip i).emptied }

theorem itrunc_emptied (h : v.BlocksOwned) (ha : v.Active i) (ht : (v.ip i).type ≠ .free) :
    Ensures (itrunc i) v (fun _ w => w = v.emptied i) E := by
  unfold itrunc
  refine (truncDirects_ensures h ha ht).seq ?_
  rintro _ _ rfl
  refine (truncIndirect_ensures h ha ht).seq ?_
  rintro _ _ rfl
  apply Ensures.bind_modify
  apply Ensures.modify
  rw [Vol.setIp_ip_self, Vol.dropped, Vol.setIp_setIp, Vol.setIp_ip_self]
  rfl

theorem Dinode.ptr_emptied (n : Dinode) (blk : Nat → Block) (p : Place) : n.emptied.ptr blk p = none := by
  have hzero : ∀ m, m ≤ ndirect → n.emptied.addrs m = 0 := fun m hm => if_pos (Nat.lt_succ_of_le hm)
  cases p with
  | addr m => exact if_neg fun hx => hx.2.2 (hzero m hx.2.1)
  | entry m => exact if_neg fun hx => hx.2.1 (hzero ndirect le_rfl)

theorem Vol.emptied_active (v : Vol) (i j : Nat) : (v.emptied i).Active j ↔ v.Active j :=
  (v.cleared _).setIp_active i j _

theorem Vol.emptied_ip (v : Vol) (i : Nat) : (v.emptied i).ip i = (v.ip i).emptied :=
  Vol.setIp_ip_self (v.cleared _) i _

theorem Vol.emptied_dinode (v : Vol) (i : Nat) : (v.emptied i).dinode i = (v.ip i).emptied :=
  update_self ..

theorem Vol.emptied_itable (hj : j ≠ i) : (v.emptied i).itable j = v.itable j :=
  update_of_ne hj _ _

theorem Vol.emptied_cur (hj : j ≠ i) : (v.emptied i).cur j = v.cur j := by
  have hdin : (v.emptied i).dinode j = v.dinode j := update_of_ne hj _ _
  simp only [Vol.cur, v.emptied_active i j, Vol.ip, Vol.emptied_itable hj, hdin]

theorem Vol.emptied_ptr (ha : v.Active i) :
    (v.emptied i).ptr = fun x => if x.1 = i then none else v.ptr x := by
  funext ⟨j, p⟩
  obtain rfl | hj := eq_or_ne j i
  · rw [if_pos rfl, Vol.ptr_active ((v.emptied_active j j).mpr ha), v.emptied_ip]
    exact Dinode.ptr_emptied _ _ p
  · rw [if_neg hj]
    exact congrArg (fun n => n.ptr v.blk p) (Vol.emptied_cur hj)

theorem Vol.cleared_bit (ha : v.Active i) (ht : (v.ip i).type ≠ .free) (b : Nat) :
    (v.cleared ((v.ip i).blocks v.blk)).bit b = true ↔
      v.bit b = true ∧ ∀ x : Nat × Place, x.1 = i → v.ptr x ≠ some b := by
  have hmem : b ∈ (v.ip i).blocks v.blk ↔ ∃ x : Nat × Place, x.1 = i ∧ v.ptr x = some b := by
    rw [Dinode.mem_blocks ht]
    constructor
    · rintro ⟨p, hp⟩
      exact ⟨(i, p), rfl, (Vol.ptr_active ha p).trans hp⟩
    · rintro ⟨⟨j, p⟩, rfl, hp⟩
      exact ⟨p, (Vol.ptr_active ha p).symm.trans hp⟩
  have hbit : (v.cleared ((v.ip i).blocks v.blk)).bit b =
      (v.bit b && !((v.ip i).blocks v.blk).contains b) := rfl
  rw [hbit, Bool.and_eq_true, Bool.not_eq_true', ← Bool.not_eq_true, List.contains_iff_mem, hmem,
    not_exists]
  exact and_congr_right fun _ => forall_congr' fun _ => not_and

theorem Vol.BlocksOwned.without (h : v.BlocksOwned) (ha : v.Active i) (ht : (v.ip i).type ≠ .free)
    (hmeta : w.nmeta = v.nmeta) (hbit : w.bit = (v.cleared ((v.ip i).blocks v.blk)).bit)
    (hptr : w.ptr = fun x => if x.1 = i then none else v.ptr x) : w.BlocksOwned := by
  unfold Vol.BlocksOwned
  rw [hptr, hbit, hmeta]
  exact h.drop (fun x => x.1 = i) (Vol.cleared_bit ha ht)

def Vol.freed (v : Vol) (i : Nat) : Vol :=
  { v with
    dinode := update v.dinode i { v.ip i with type := .free }
    itable := update v.itable i ⟨(v.itable i).ref - 1, false, { v.ip i with type := .free }⟩ }

def Vol.gone (v : Vol) (i : Nat) : Vol := (v.emptied i).freed i

theorem iput_gone (h : v.BlocksOwned) (ht : (v.ip i).type ≠ .free)
    (hlast : (v.itable i).ref = 1 ∧ (v.itable i).valid = true ∧ (v.itable i).ip.nlink = 0) :
    Ensures (iput i) v (fun _ w => w = v.gone i) E := by
  have ha : v.Active i := ⟨by omega, hlast.2.1⟩
  unfold iput
  apply Ensures.bind_get
  dsimp only
  rw [if_pos hlast]
  refine (itrunc_emptied h ha ht).seq ?_
  rintro _ _ rfl
  apply Ensures.bind_modify
  apply Ensures.bind_modify
  apply Ensures.bind_modify
  apply Ensures.modify
  simp only [Vol.gone, Vol.freed, Vol.setIp, Vol.setEntry, Vol.ip, update_self,
    update_idem]

theorem Vol.gone_itable (hj : j ≠ i) : (v.gone i).itable j = v.itable j :=
  (update_of_ne hj _ _).trans (Vol.emptied_itable hj)

theorem Vol.gone_itable_self (v : Vol) (i : Nat) : (v.gone i).itable i =
    ⟨(v.itable i).ref - 1, false, { (v.ip i).emptied with type := .free }⟩ := by
  rw [Vol.gone, Vol.freed, Vol.emptied_ip]
  simp [Vol.emptied, Vol.setIp, Vol.setEntry, Vol.cleared]

theorem Vol.gone_dinode (hj : j ≠ i) : (v.gone i).dinode j = v.dinode j :=
  (update_of_ne hj _ _).trans (update_of_ne hj _ _)

theorem Vol.gone_dinode_self (v : Vol) (i : Nat) :
    (v.gone i).dinode i = { (v.ip i).emptied with type := .free } := by
  rw [← v.emptied_ip]
  exact update_self ..

theorem Vol.gone_cur (hj : j ≠ i) : (v.gone i).cur j = v.cur j :=
  Vol.cur_congr (Vol.gone_itable hj) (Vol.gone_dinode hj)

theorem Vol.gone_cur_self (v : Vol) (i : Nat) : (v.gone i).cur i = (v.gone i).dinode i := by
  refine if_neg fun h => ?_
  have hvalid := h.2
  rw [v.gone_itable_self] at hvalid
  cases hvalid

theorem Vol.gone_ptr (v : Vol) (i : Nat) :
    (v.gone i).ptr = fun x => if x.1 = i then none else v.ptr x := by
  funext ⟨j, p⟩
  obtain rfl | hj := eq_or_ne j i
  · rw [if_pos rfl, Vol.ptr, v.gone_cur_self, v.gone_dinode_self]
    exact Dinode.ptr_free rfl _ p
  · rw [if_neg hj]
    exact congrArg (fun n => n.ptr v.blk p) (Vol.gone_cur hj)

end Xv6.Blocks
