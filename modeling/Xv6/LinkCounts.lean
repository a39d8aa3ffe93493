import Xv6.NameSpace

namespace Xv6.Inodes

open Xv6.Lib Finset LinkGraph

section Counts

variable {ι : Type} {s t : State ι}

/-- The number of entries other than `.` that name inode `i` in directories with links. -/
def entriesTo (s : State ι) (i : Nat) : Nat :=
  ∑ d ∈ range s.ninodes, if (s.inode d).type = .dir ∧ 0 < (s.inode d).nlink then
    (s.inode d).ents.countP fun e => e.inum = i ∧ e.name ≠ dot else 0

inductive Reachable (s : State ι) : Nat → Prop
  | root : Reachable s rootino
  | step {d : Nat} {e : Dirent} : Reachable s d → (s.inode d).type = .dir → 0 < (s.inode d).nlink →
      e ∈ (s.inode d).ents → e.inum ≠ 0 → e.name ≠ dot → Reachable s e.inum

/-- Link counts are right, and what has links is reachable. -/
def LinkCounts (s : State ι) : Prop :=
  ∀ i, (s.inode i).type ≠ .free →
    (s.inode i).nlink = entriesTo s i ∧ (0 < (s.inode i).nlink → Reachable s i)

/-- How directories are laid out, whatever the link counts. -/
structure Layout (s : State ι) : Prop where
  ninodes : s.ninodes ≤ 2 ^ 16
  zero : (s.inode 0).type = .free
  mem : ∀ i, (s.inode i).type ≠ .free → i < s.ninodes
  nlink_short : ∀ i, (s.inode i).type ≠ .free → 0 ≤ (s.inode i).nlink ∧ (s.inode i).nlink < 2 ^ 15
  shape : ∀ d, (s.inode d).type = .dir → Shape d (s.inode d).ents
  root : (s.inode rootino).type = .dir ∧ (s.inode rootino).up = rootino ∧ 0 < (s.inode rootino).nlink
  up_ne : ∀ d, (s.inode d).type = .dir → d ≠ rootino → (s.inode d).up ≠ d
  named : ∀ d i, 0 < (s.inode d).links i →
    (s.inode i).type ≠ .free ∧ i ≠ rootino ∧ 0 < (s.inode d).nlink
  parent : ∀ d i, 0 < (s.inode d).links i → (s.inode i).type = .dir →
    (s.inode i).up = d ∧ (s.inode d).links i ≤ 1

theorem Shape.count {d i : Nat} {n : Inode} (h : Shape d n.ents) (hd : n.type = .dir) (hi : i ≠ 0) :
    (n.ents.countP fun e => e.inum = i ∧ e.name ≠ dot) = (if n.up = i then 1 else 0) + n.links i := by
  obtain ⟨g, u, k, rest, heq, -, hnames, -⟩ := h
  have hrest : (rest.countP fun e => e.inum = i ∧ e.name ≠ dot) = rest.countP fun e => e.inum = i := by
    refine List.countP_congr fun e he => ?_
    simp only [decide_eq_true_eq]
    exact ⟨fun hc => hc.1, fun hc => ⟨hc, (hnames e he (hc ▸ hi)).1⟩⟩
  have hne : dotdot ≠ dot := by decide
  have hlinks : n.links i = rest.countP fun e => e.inum = i := by
    rw [Inode.links, if_pos ⟨hd, hi⟩, heq]
    rfl
  have hup : n.up = u := by
    rw [Inode.up, heq]
    rfl
  rw [hlinks, hup, heq, List.countP_cons, List.countP_cons, hrest]
  simp only [ne_eq, not_true_eq_false, and_false, decide_false, Bool.false_eq_true, if_false, add_zero,
    hne, not_false_eq_true, and_true, decide_eq_true_eq]
  omega

theorem entriesTo_eq (hshape : ∀ d, (s.inode d).type = .dir → Shape d (s.inode d).ents) {i : Nat}
    (hi : i ≠ 0) : entriesTo s i = (graph s).liveLinks (range s.ninodes) i := by
  refine sum_congr rfl fun d _ => ?_
  have hk : (graph s).kind d = .dir ↔ (s.inode d).type = .dir := FileType.kind_dir
  by_cases hd : (s.inode d).type = .dir ∧ 0 < (s.inode d).nlink
  · rw [if_pos hd, if_pos ⟨hk.mpr hd.1, hd.2⟩]
    exact (hshape d hd.1).count hd.1 hi
  · rw [if_neg hd, if_neg (fun hc => hd ⟨hk.mp hc.1, hc.2⟩)]

theorem reachable_of_reach {strict safe : Prop} (h : Links strict safe (fun _ => 0) s) {i : Nat}
    (hi : (graph s).Reach rootino i) (hs : strict) : Reachable s i := by
  induction hi with
  | root => exact .root
  | @step d x _ hl ih =>
    obtain ⟨hd, hx, e, he, rfl⟩ := links_pos.mp hl
    have hlive : 0 < (s.inode d).nlink :=
      (h.tree.dir_pos_iff (FileType.kind_dir.mpr hd) rfl).mpr (h.tree.holder_strict hs hl)
    obtain ⟨g, u, k, rest, heq, -, hnames, -⟩ := h.shape d hd
    rw [heq] at he
    refine .step (ih) hd hlive (List.mem_of_mem_drop (i := 2) ?_) hx (hnames e he hx).1
    rw [heq]
    exact he

theorem linkCounts_of_links {safe : Prop} (h : Links True safe (fun _ => 0) s) : LinkCounts s := by
  intro i hi
  have h0 : i ≠ 0 := by
    rintro rfl
    exact hi h.zero
  refine ⟨?_, fun hpos => ?_⟩
  · rw [entriesTo_eq h.shape h0]
    exact h.tree.nlink_eq trivial (fun hc => hi (FileType.kind_free.mp hc))
  · refine reachable_of_reach h ?_ trivial
    by_cases hr : i = rootino
    · exact hr ▸ .root
    · refine h.tree.reach trivial i ?_
      by_cases hd : (s.inode i).type = .dir
      · exact ((h.tree.dir_pos_iff (FileType.kind_dir.mpr hd) rfl).mp hpos).resolve_left hr
      · have : (s.inode i).nlink = (graph s).inDeg (range s.ninodes) i + (0 : Nat) :=
          h.tree.leaf_strict trivial i (FileType.kind_leaf hi hd)
        omega

namespace Layout

variable {d i : Nat}

theorem reach_of_reachable (h : Layout s) (hi : Reachable s i) : (graph s).Reach rootino i := by
  induction hi with
  | root => exact .root
  | @step d e _ hd _ he h0 hname ih =>
    obtain ⟨g, u, k, rest, heq, -, -, -⟩ := h.shape d hd
    rw [heq] at he
    rcases List.mem_cons.mp he with rfl | he
    · exact absurd rfl hname
    rcases List.mem_cons.mp he with rfl | he
    · have hup : (s.inode d).up = u := by
        rw [Inode.up, heq]
        rfl
      show (graph s).Reach rootino u
      rw [← hup]
      cases ih with
      | root =>
        rw [h.root.2.1]
        exact .root
      | @step f _ hf hl => rwa [(h.parent f d hl hd).1]
    · refine .step ih (links_pos.mpr ⟨hd, h0, e, ?_, rfl⟩)
      rw [heq]
      exact he

theorem link_mem (h : Layout s) (hl : 0 < (graph s).down d i) : d ∈ range s.ninodes :=
  mem_range.mpr (h.mem d (by rw [(links_pos.mp hl).1]; exact nofun))

theorem inDeg_pos (h : Layout s) (hl : 0 < (graph s).down d i) :
    0 < (graph s).inDeg (range s.ninodes) i :=
  lt_of_lt_of_le hl (down_le_inDeg (h.link_mem hl) i)

theorem live_iff (h : Layout s) (hc : LinkCounts s) (hi : (s.inode i).type ≠ .free)
    (hr : i ≠ rootino) : 0 < (s.inode i).nlink ↔ 0 < (graph s).inDeg (range s.ninodes) i := by
  constructor
  · intro hpos
    cases h.reach_of_reachable ((hc i hi).2 hpos) with
    | root => exact absurd rfl hr
    | step _ hl => exact h.inDeg_pos hl
  · intro hin
    obtain ⟨d, hm, hl⟩ := exists_link hin
    obtain ⟨-, -, hlive⟩ := h.named d i hl
    obtain ⟨hd, h0, -⟩ := links_pos.mp hl
    rw [(hc i hi).1, entriesTo_eq h.shape h0]
    have hle := single_le_sum (s := range s.ninodes) (fun _ _ => Nat.zero_le _) hm
      (f := fun d => if (graph s).kind d = .dir ∧ 0 < (graph s).nlink d then
        (if (graph s).up d = i then 1 else 0) + (graph s).down d i else 0)
    have hterm : (if (graph s).kind d = .dir ∧ 0 < (graph s).nlink d then
        (if (graph s).up d = i then 1 else 0) + (graph s).down d i else 0) =
        (if (graph s).up d = i then 1 else 0) + (graph s).down d i :=
      if_pos ⟨FileType.kind_dir.mpr hd, hlive⟩
    simp only [hterm] at hle
    have : 0 < (graph s).liveLinks (range s.ninodes) i := lt_of_lt_of_le (by omega) hle
    omega

theorem orphan (h : Layout s) (hc : LinkCounts s) (hd : (s.inode d).type = .dir)
    (hr : d ≠ rootino) (h0 : (graph s).inDeg (range s.ninodes) d = 0) (i : Nat) :
    (graph s).down d i = 0 := by
  by_contra hne
  have hlive := (h.named d i (Nat.pos_of_ne_zero hne)).2.2
  have := (h.live_iff hc (by rw [hd]; exact nofun) hr).mp hlive
  omega

theorem nlink_eq (h : Layout s) (hc : LinkCounts s) (hi : (s.inode i).type ≠ .free) :
    (s.inode i).nlink = ((graph s).kids (range s.ninodes) rootino i +
      (if i = rootino then 1 else 0) + (graph s).inDeg (range s.ninodes) i : Nat) := by
  have h0 : i ≠ 0 := by
    rintro rfl
    exact hi h.zero
  have hroot : (s.inode rootino).type ≠ .free := by
    rw [h.root.1]
    exact nofun
  rw [(hc i hi).1, entriesTo_eq h.shape h0, liveLinks_eq (mem_range.mpr (h.mem rootino hroot))]
  · intro d hl
    by_contra hne
    have hpos := Nat.pos_of_ne_zero hne
    exact hl ⟨FileType.kind_dir.mpr (links_pos.mp hpos).1, (h.named d i hpos).2.2⟩
  · intro d
    have hk : (graph s).kind d = .dir ↔ (s.inode d).type = .dir := FileType.kind_dir
    constructor
    · rintro ⟨⟨hd, hpos⟩, hup⟩
      obtain rfl | hr := eq_or_ne d rootino
      · exact .inr ⟨rfl, hup.symm.trans h.root.2.1⟩
      · have hnode : (s.inode d).type ≠ .free := by
          rw [hk.mp hd]
          exact nofun
        exact .inl ⟨hd, hr, hup, (h.live_iff hc hnode hr).mp hpos⟩
    · rintro (⟨hd, hr, hup, hin⟩ | ⟨rfl, rfl⟩)
      · have hnode : (s.inode d).type ≠ .free := by
          rw [hk.mp hd]
          exact nofun
        exact ⟨⟨hd, (h.live_iff hc hnode hr).mpr hin⟩, hup⟩
      · exact ⟨⟨hk.mpr h.root.1, h.root.2.2⟩, h.root.2.1⟩

theorem inDeg_le_one (h : Layout s) (hi : (s.inode i).type = .dir) :
    (graph s).inDeg (range s.ninodes) i ≤ 1 := by
  by_cases hin : 0 < (graph s).inDeg (range s.ninodes) i
  · obtain ⟨d, hm, hl⟩ := exists_link hin
    have hone : (graph s).inDeg (range s.ninodes) i = (graph s).down d i := by
      refine sum_eq_single_of_mem d hm fun e _ hne => ?_
      by_contra hc
      exact hne ((h.parent e i (Nat.pos_of_ne_zero hc) hi).1.symm.trans (h.parent d i hl hi).1)
    rw [hone]
    exact (h.parent d i hl hi).2
  · omega

theorem links (h : Layout s) (hc : LinkCounts s) : Links True False (fun _ => 0) s := by
  have hdir : ∀ {i}, (graph s).kind i = .dir → (s.inode i).type = .dir := FileType.kind_dir.mp
  have hnode : ∀ {i}, (graph s).kind i = .leaf → (s.inode i).type ≠ .free ∧ (s.inode i).type ≠ .dir := by
    intro i hi
    refine ⟨fun hc => ?_, fun hc => ?_⟩
    · rw [show (graph s).kind i = .free from FileType.kind_free.mpr hc] at hi
      cases hi
    · rw [show (graph s).kind i = .dir from FileType.kind_dir.mpr hc] at hi
      cases hi
  have hleaf : ∀ i, (graph s).kind i = .leaf →
      (s.inode i).nlink = (graph s).inDeg (range s.ninodes) i + (0 : Nat) := by
    intro i hi
    obtain ⟨hfree, hnd⟩ := hnode hi
    have hroot : i ≠ rootino := by
      rintro rfl
      exact hnd h.root.1
    have hkids : (graph s).kids (range s.ninodes) rootino i = 0 := by
      refine kids_eq_zero fun d hd => ?_
      obtain ⟨e, -, hl⟩ := exists_link hd.2.2.2
      have hup : e = i := (h.parent e d hl (hdir hd.1)).1.symm.trans hd.2.2.1
      exact hnd (hup ▸ (links_pos.mp hl).1)
    rw [h.nlink_eq hc hfree, hkids, if_neg hroot]
    omega
  constructor
  · constructor
    · exact fun i hi => mem_range.mpr (h.mem i fun hc => hi (FileType.kind_free.mpr hc))
    · exact FileType.kind_dir.mpr h.root.1
    · by_contra hne
      obtain ⟨d, -, hl⟩ := exists_link (Nat.pos_of_ne_zero hne)
      exact (h.named d rootino hl).2.1 rfl
    · exact h.root.2.1
    · exact fun d i hl => FileType.kind_dir.mpr (links_pos.mp hl).1
    · exact fun d i hl hc => (h.named d i hl).1 (FileType.kind_free.mp hc)
    · exact fun i hi => (hleaf i hi).ge
    · exact fun _ i hi => hleaf i hi
    · intro i hi
      have hfree : (s.inode i).type ≠ .free := by
        rw [hdir hi]
        exact nofun
      show (s.inode i).nlink = _
      rw [h.nlink_eq hc hfree]
      obtain rfl | hr := eq_or_ne i rootino
      · have h0 : (graph s).inDeg (range s.ninodes) rootino = 0 := by
          by_contra hne
          obtain ⟨d, -, hl⟩ := exists_link (Nat.pos_of_ne_zero hne)
          exact (h.named d rootino hl).2.1 rfl
        rw [h0, if_pos rfl]
        omega
      · rw [if_neg hr, if_neg hr]
        omega
    · exact fun i hi => h.inDeg_le_one (hdir hi)
    · exact fun d i hl hi => (h.parent d i hl (hdir hi)).1
    · exact fun i hi hr => h.up_ne i (hdir hi) hr
    · intro d hd hr h0
      refine kids_eq_zero fun e he => ?_
      obtain ⟨f, -, hl⟩ := exists_link he.2.2.2
      have hup : f = d := (h.parent f e hl (hdir he.1)).1.symm.trans he.2.2.1
      rw [hup, h.orphan hc (hdir hd) hr h0] at hl
      exact absurd hl (lt_irrefl 0)
    · exact fun _ d hd hr h0 => h.orphan hc (hdir hd) hr h0
    · exact nofun
    · intro _ i hi
      obtain ⟨d, -, hl⟩ := exists_link hi
      obtain ⟨hfree, hr, -⟩ := h.named d i hl
      exact h.reach_of_reachable ((hc i hfree).2 ((h.live_iff hc hfree hr).mpr hi))
  · exact h.ninodes
  · exact h.zero
  · exact h.shape
  · exact fun i hi => (h.nlink_short i hi).2
  · exact nofun

end Layout

/-- As long as nothing is made in a directory without links and no link count runs over, link counts
stay right and what has links stays reachable. -/
theorem link_counts_kept [Fintype ι] [DecidableEq ι] (h : Layout s)
    (hrefs : Refs False (fun _ => 0) (fun _ => 0) s) (hc : LinkCounts s) {as : List (ι × Call ι)}
    (hr : Run callStep (CallOk True False) s as t) : LinkCounts t := by
  have hs : WellFormed True False s := ⟨h.links hc, hrefs⟩
  exact linkCounts_of_links (run_wellFormed hs hr).links

/-- Reference counts are exact, and what a process has open or is in is never freed. -/
theorem inode_references_exact [Fintype ι] [DecidableEq ι] (h : WellFormed False False s) {as : List (ι × Call ι)}
    (hr : Run callStep (CallOk False False) s as t) :
    (∀ i, (t.inode i).ref = holders t i) ∧ (∀ f, (t.file f).ref = total (fdRefs f) t.proc) ∧
      ∀ i, 0 < holders t i → (t.inode i).type ≠ .free := by
  have hrefs := (run_wellFormed h hr).refs
  exact ⟨fun i => (hrefs.count i).trans (Nat.add_zero _), fun f => (hrefs.files f).trans (Nat.add_zero _),
    fun i hi => hrefs.held i (.inl hi)⟩

end Counts

theorem boot_layout {ι : Type} [DecidableEq ι] {n : Nat} (hn : 2 ≤ n) (hmax : n ≤ 2 ^ 16) (p : ι) :
    Layout (bootState n p) := by
  have hl : Links False False (fun _ => 0) (bootState n p) := boot_links hn hmax p
  have hnone : ∀ d i, ¬ 0 < ((bootState n p).inode d).links i := by
    intro d i hpos
    have hpos : 0 < (graph (bootState n p)).down d i := hpos
    rw [boot_down] at hpos
    exact absurd hpos (lt_irrefl 0)
  refine ⟨hmax, rfl, fun i hi => hl.mem hi, ?_, hl.shape, ⟨rfl, rfl, Int.one_pos⟩, ?_, ?_, ?_⟩
  · intro i hi
    rw [boot_type n p hi]
    exact (by decide : (0 : Int) ≤ 1 ∧ (1 : Int) < 2 ^ 15)
  · intro d hd hr
    exact absurd (boot_type n p (by rw [hd]; exact nofun)) hr
  · exact fun d i hpos => absurd hpos (hnone d i)
  · exact fun d i hpos => absurd hpos (hnone d i)

theorem boot_linkCounts {ι : Type} [DecidableEq ι] {n : Nat} (hn : 2 ≤ n) (hmax : n ≤ 2 ^ 16) (p : ι) :
    LinkCounts (bootState n p) := by
  have hl : Links True False (fun _ => 0) (bootState n p) := boot_links hn hmax p
  exact linkCounts_of_links hl

def sortedCalls : List (Unit × Call Unit) :=
  [((), .mkdir [97]), ((), .mkdir [97, 47, 98]), ((), .mknod [99] 1), ((), .open [97, 47, 102] 0x202),
    ((), .link [97, 47, 102] [103]), ((), .unlink [97, 47, 102]), ((), .unlink [97, 47, 98]),
    ((), .chdir [97]), ((), .unlink [46, 46, 47, 97]), ((), .chdir [47]), ((), .close 0)]

theorem link_counts_kept_sortedCalls :
    ∃ t : State Unit, Run callStep (CallOk True False) (bootState 8 ()) sortedCalls t ∧ LinkCounts t := by
  have hr : (outcome callStep (CallOk True False) (bootState 8 ()) sortedCalls).isSome = true := by
    decide +kernel
  exact ⟨_, Run.of_outcome hr, link_counts_kept (boot_layout (by decide) (by decide) ())
    (boot_refs 8 ())
    (boot_linkCounts (by decide) (by decide) ()) (Run.of_outcome hr)⟩

theorem inode_references_exact_sortedCalls : ∃ t : State Unit,
    Run callStep (CallOk False False) (bootState 8 ()) sortedCalls t ∧ (t.inode 1).ref = 1 ∧ holders t 1 = 1 := by
  have hrun : ∃ t : State Unit, Run callStep (CallOk False False) (bootState 8 ()) sortedCalls t ∧
      (t.inode 1).ref = 1 := Run.exists_of_outcome (by decide +kernel)
  obtain ⟨t, hr, href⟩ := hrun
  have hwell : WellFormed False False (bootState 8 ()) := boot_wellFormed (by decide) (by decide) ()
  exact ⟨t, hr, href, ((inode_references_exact hwell hr).1 1).symm.trans href⟩

/-- Make `/a`, go there, remove it, and make the file `f` there; then close the file and leave. -/
def leakCalls : List (Unit × Call Unit) :=
  [((), .mkdir [97]), ((), .chdir [97]), ((), .unlink [46, 46, 47, 97]), ((), .open [102] 0x202),
    ((), .close 0), ((), .chdir [47])]

/-- The file that was made in a removed directory keeps its link count and has no entry. -/
theorem unlinked_directory_leaks : Layout (bootState 8 ()) ∧ LinkCounts (bootState 8 ()) ∧
    Refs False (fun _ => 0) (fun _ => 0) (bootState 8 ()) ∧
    ∃ t, Run callStep (fun _ _ => True) (bootState 8 ()) leakCalls t ∧
      ∃ i < 8, (t.inode i).type = .file ∧ (t.inode i).ref = 0 ∧ (t.inode i).nlink = 1 ∧
        entriesTo t i = 0 :=
  ⟨boot_layout (by decide) (by decide) (), boot_linkCounts (by decide) (by decide) (),
    (boot_refs 8 ()),
    Run.exists_of_outcome (by decide +kernel)⟩

end Xv6.Inodes
