import Xv6.BlockContents
import Xv6.FileReadBounds
import Xv6.UserCopy

namespace Xv6.Vm

open Xv6.Lib

variable {m : Phys} {p : Proc} {pt a : Nat}

/-- The pages that `either_copyin` of the file system reads. -/
def Phys.readable (m : Phys) (pt va : Nat) : Option (Nat → UInt8) := (m.user pt va).map m.page

/-- The pages that `either_copyout` of the file system writes to. -/
def Phys.writable (m : Phys) (pt va : Nat) : Bool := (m.lookup pt va).any fun e => has e pteU && has e pteW

theorem readable_none (hp : ¬ Present m pt false a) : m.readable pt (pgRoundDown a) = none := by
  rw [Phys.readable, Option.map_eq_none_iff, ← user_page m _ (pgRoundDown_page a)]
  by_contra hne
  obtain ⟨f, hf⟩ := Option.ne_none_iff_exists'.mp hne
  obtain ⟨e, he, hu, -⟩ := user_some hf
  exact hp ⟨e, he, hu, fun hc => absurd hc Bool.false_ne_true⟩

theorem takes_writable (out : List (Nat × UInt8)) :
    FileRead.User.takes ⟨m.writable pt, out⟩ a = true ↔ Present m pt true a := by
  have hpage : m.writable pt (pgRoundDown a) = true ↔ Present m pt true a := by
    rw [Phys.writable, ← lookup_same m pt (pgRoundDown_page a), Option.any_eq_true]
    refine exists_congr fun e => and_congr_right fun _ => ?_
    rw [Bool.and_eq_true, eq_self, true_imp_iff]
  rw [FileRead.User.takes, Bool.and_eq_true, decide_eq_true_iff, hpage, and_iff_right_iff_imp]
  exact fun hp => (Nat.div_mul_le_self a pgsize).trans_lt hp.lt

variable [Layout]

theorem ProcSpace.readable (h : ProcSpace m p) (hp : Present m p.pagetable false a) :
    (m.readable p.pagetable (pgRoundDown a)).map (fun page => page (a % pgsize)) = some (m.view p.pagetable a) := by
  obtain ⟨e, he, hu, -⟩ := hp
  have hf := h.user_of_lookup he hu
  rw [Phys.readable, ← user_page m _ (pgRoundDown_page a), hf, view_of_user hf]
  rfl

/-- The copy into a block that the file system makes is `copyin` of the pages that are there afterwards. -/
theorem copyin_refines (h : ProcSpace m p) (x : Block) (off va len : Nat) :
    Completes (copyin p p.pagetable va len) m fun r m' =>
      LogSystem.copyin (m'.readable p.pagetable) x off va len =
        (LogSystem.memmove x off (fun j => r.bytes.getD j 0) r.bytes.length, decide (r.ret = 0)) := by
  refine (copyinLoop_ensures len h le_rfl ⟨0, [], []⟩ rfl).post fun r m' hr => ?_
  obtain ⟨bytes, seen, hbytes, -, hprog, hread⟩ := hr
  rw [List.nil_append] at hbytes
  rw [LogSystem.copyin, hbytes, Blocks.copyinLoop_eq len x off va len bytes.length (fun j => bytes.getD j 0) le_rfl]
  · refine Prod.ext rfl (decide_eq_decide.mpr ?_)
    have hret := hprog.ret
    omega
  · have hret := hprog.ret
    omega
  · intro k hk
    have hbyte : bytes.getD k 0 = m.view p.pagetable (va + k) := by
      rw [List.getD_eq_getElem?_getD, hread.bytes, List.getElem?_map, List.getElem?_range hk]
      rfl
    rw [hprog.space.readable (hprog.present k hk), hread.view, hbyte]
  · intro hlt
    obtain ⟨-, hn⟩ | ⟨-, -, hno, -⟩ := hprog.ret
    · exact absurd hn hlt.ne
    · exact readable_none hno

/-- The bytes that the file system writes to the user are those that `copyout` writes. -/
theorem copyout_refines (h : ProcSpace m p) (va : Nat) (src : List UInt8) :
    Completes (copyout p p.pagetable va src) m fun r m' => ∃ n,
      (∀ out, FileRead.copyout ⟨m'.writable p.pagetable, out⟩ va src =
        (FileRead.User.put ⟨m'.writable p.pagetable, out⟩ va (src.take n), decide (r.1 = 0))) ∧
      ∀ a, m'.view p.pagetable a =
        if va ≤ a ∧ a < va + n then src.getD (a - va) 0 else m.view p.pagetable a := by
  refine (copyoutLoop_ensures src.length h le_rfl []).post fun r m' hr => ?_
  obtain ⟨n, seen, -, hprog, hwrote⟩ := hr
  refine ⟨n, fun out => ?_, hwrote.view⟩
  obtain ⟨c, hc⟩ := FileRead.copyout_copies ⟨m'.writable p.pagetable, out⟩ va src
  have hret := hprog.ret
  have hle := hc.le
  have hcn : c = n := by
    rcases Nat.lt_trichotomy c n with hlt | heq | hgt
    · have hno := hc.stop (by omega)
      rw [(takes_writable out).mpr (hprog.present c hlt)] at hno
      cases hno
    · exact heq
    · obtain ⟨-, hn⟩ | ⟨-, -, hno, -⟩ := hret
      · omega
      · exact absurd ((takes_writable out).mp (hc.taken n hgt)) hno
  refine Prod.ext (hcn ▸ hc.user) ?_
  rw [Bool.eq_iff_iff, hc.all, decide_eq_true_iff]
  omega

end Xv6.Vm
