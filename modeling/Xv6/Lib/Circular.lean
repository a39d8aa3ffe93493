import Mathlib.Logic.Function.Basic
import Mathlib.Data.List.Basic
import Mathlib.Data.List.Nodup

namespace Xv6.Lib

open Function

variable {α : Type} {f : α → α} {a b c x y : α} {l l₁ l₂ : List α}

/-- Following `f` from `a` leads through `l` to `b`. -/
def Path (f : α → α) : α → List α → α → Prop
  | a, [], b => f a = b
  | a, x :: l, b => f a = x ∧ Path f x l b

namespace Path

theorem append_iff : Path f a (l₁ ++ x :: l₂) b ↔ Path f a l₁ x ∧ Path f x l₂ b := by
  induction l₁ generalizing a with
  | nil => rfl
  | cons z l₁ ih =>
    rw [List.cons_append]
    exact (and_congr_right fun _ => ih).trans and_assoc.symm

theorem first (h : Path f a l b) : f a = l.headD b := by
  cases l with
  | nil => exact h
  | cons x l => exact h.1

variable [DecidableEq α]

theorem update_of_notMem (h : Path f a l b) (hx : x ∉ a :: l) : Path (update f x y) a l b := by
  induction l generalizing a with
  | nil =>
    rw [Path, update_of_ne fun he => hx (by simp [he])]
    exact h
  | cons z l ih =>
    refine ⟨?_, ih h.2 fun hm => hx (List.mem_cons_of_mem _ hm)⟩
    rw [update_of_ne fun he => hx (by simp [he])]
    exact h.1

theorem redirect (h : Path f a l b) (hnd : (a :: l).Nodup) :
    Path (update f (l.getLastD a) c) a l c := by
  induction l generalizing a with
  | nil => exact update_self ..
  | cons z l ih =>
    obtain ⟨hnotin, hnd⟩ := List.nodup_cons.mp hnd
    rw [List.getLastD_cons]
    refine ⟨?_, ih h.2 hnd⟩
    have hne : a ≠ l.getLastD z := fun he => hnotin (he ▸ List.getLastD_mem_cons)
    rw [update_of_ne hne]
    exact h.1

theorem bypass (h : Path f a (l₁ ++ b :: l₂) c) (hnd : (a :: (l₁ ++ b :: l₂)).Nodup) :
    Path (update f (l₁.getLastD a) (f b)) a (l₁ ++ l₂) c := by
  obtain ⟨h₁, h₂⟩ := append_iff.mp h
  rw [← List.cons_append, List.nodup_append] at hnd
  have hto : Path (update f (l₁.getLastD a) (f b)) a l₁ (f b) := h₁.redirect hnd.1
  cases l₂ with
  | nil =>
    rw [List.append_nil, ← show f b = c from h₂]
    exact hto
  | cons y l₂ =>
    rw [h₂.1] at hto ⊢
    refine append_iff.mpr ⟨hto, h₂.2.update_of_notMem fun hm => ?_⟩
    exact hnd.2.2 _ List.getLastD_mem_cons _ (List.mem_cons_of_mem _ hm) rfl

theorem cons (h : Path f a l c) (hb : b ∉ a :: l) (hnd : (a :: l).Nodup) :
    Path (update (update f b (f a)) a b) a (b :: l) c := by
  have hba : b ≠ a := fun he => hb (he ▸ List.mem_cons_self)
  have hfrom : update (update f b (f a)) a b b = f a := by
    rw [update_of_ne hba, update_self]
  refine ⟨update_self .., ?_⟩
  cases l with
  | nil => exact hfrom.trans h
  | cons x l =>
    refine ⟨hfrom.trans h.1, (h.2.update_of_notMem fun hm => ?_).update_of_notMem fun hm => ?_⟩
    · exact hb (List.mem_cons_of_mem _ hm)
    · exact (List.nodup_cons.mp hnd).1 hm

theorem concat (h : Path f a l c) (hb : b ∉ a :: l) (hnd : (a :: l).Nodup) :
    Path (update (update f b c) (l.getLastD a) b) a (l ++ [b]) c := by
  have hlast : b ≠ l.getLastD a := fun he => hb (he ▸ List.getLastD_mem_cons)
  refine append_iff.mpr ⟨(h.update_of_notMem hb).redirect hnd, ?_⟩
  rw [Path, update_of_ne hlast, update_self]

end Path

/-- The loop `for(b = from; b != head; b = f(b)) if(p(b)) break;`, and where it ends. -/
def seek [DecidableEq α] (f : α → α) (head : α) (p : α → Bool) : Nat → α → Option α
  | 0, _ => none
  | fuel + 1, b => if b = head then some b else if p b then some b else seek f head p fuel (f b)

theorem Path.seek_eq [DecidableEq α] {head : α} {p : α → Bool} {fuel : Nat} (h : Path f a l head)
    (hl : head ∉ l) (hfuel : l.length < fuel) :
    seek f head p fuel (f a) = some ((l.find? p).getD head) := by
  induction l generalizing a fuel with
  | nil =>
    obtain ⟨k, rfl⟩ := Nat.exists_eq_succ_of_ne_zero (Nat.ne_of_gt (Nat.zero_lt_of_lt hfuel))
    rw [show f a = head from h, seek, if_pos rfl]
    rfl
  | cons x l ih =>
    obtain ⟨k, rfl⟩ := Nat.exists_eq_succ_of_ne_zero (Nat.ne_of_gt (Nat.zero_lt_of_lt hfuel))
    have hx : x ≠ head := fun he => hl (he ▸ List.mem_cons_self)
    rw [h.1, seek, if_neg hx, List.find?_cons]
    cases p x with
    | true => rfl
    | false => exact ih h.2 (fun hm => hl (List.mem_cons_of_mem _ hm)) (Nat.lt_of_succ_lt_succ hfuel)

/-- The links form one circle through `head` and the nodes of `l`, each of them once. -/
structure Circular (head : α) (next prev : α → α) (l : List α) : Prop where
  next : Path next head l head
  prev : Path prev head l.reverse head
  nodup : (head :: l).Nodup

namespace Circular

variable {head : α} {next prev : α → α}

theorem empty (hn : next head = head) (hp : prev head = head) : Circular head next prev [] :=
  ⟨hn, hp, List.nodup_singleton _⟩

theorem nodup_reverse (h : Circular head next prev l) : (head :: l.reverse).Nodup := by
  have hnd := List.nodup_cons.mp h.nodup
  exact List.nodup_cons.mpr ⟨fun hm => hnd.1 (List.mem_reverse.mp hm), List.nodup_reverse.mpr hnd.2⟩

theorem headD_reverse : l.reverse.headD a = l.getLastD a := by
  rw [List.headD_eq_head?_getD, List.head?_reverse, List.getLastD_eq_getLast?]

theorem getLastD_reverse : l.reverse.getLastD a = l.headD a := by
  rw [List.getLastD_eq_getLast?, List.getLast?_reverse, List.headD_eq_head?_getD]

theorem next_head (h : Circular head next prev l) : next head = l.headD head := h.next.first

theorem next_mem (h : Circular head next prev (l₁ ++ b :: l₂)) : next b = l₂.headD head :=
  (Path.append_iff.mp h.next).2.first

theorem prev_mem (h : Circular head next prev (l₁ ++ b :: l₂)) : prev b = l₁.getLastD head := by
  have hp := h.prev
  rw [List.reverse_append, List.reverse_cons, List.append_assoc] at hp
  rw [← headD_reverse]
  exact (Path.append_iff.mp hp).2.first

variable [DecidableEq α]

/-- `b->next->prev = b->prev; b->prev->next = b->next` -/
theorem unlink (h : Circular head next prev (l₁ ++ b :: l₂)) :
    Circular head (update next (prev b) (next b)) (update prev (next b) (prev b))
      (l₁ ++ l₂) := by
  refine ⟨?_, ?_, ?_⟩
  · rw [h.prev_mem]
    exact h.next.bypass h.nodup
  · have hp := h.prev
    have hnd := h.nodup_reverse
    rw [List.reverse_append, List.reverse_cons, List.append_assoc] at hp hnd
    rw [h.next_mem, ← getLastD_reverse, List.reverse_append]
    exact hp.bypass hnd
  · exact h.nodup.sublist (((List.sublist_cons_self b l₂).append_left l₁).cons_cons head)

/-- `b->next = head.next; b->prev = &head; head.next->prev = b; head.next = b` -/
theorem link (h : Circular head next prev l) (hb : b ∉ head :: l) :
    Circular head (update (update next b (next head)) head b)
      (update (update prev b head) (next head) b) (b :: l) := by
  refine ⟨h.next.cons hb h.nodup, ?_, ?_⟩
  · rw [h.next_head, ← getLastD_reverse, List.reverse_cons]
    exact h.prev.concat (fun hm => hb (by simpa using hm)) h.nodup_reverse
  · exact (List.Perm.swap head b l).nodup (List.nodup_cons.mpr ⟨hb, h.nodup⟩)

end Circular

end Xv6.Lib
