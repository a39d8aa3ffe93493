import Xv6.Sleepers

namespace Xv6.Threads

variable {n : Nat} {κ Λ γ L D X : Type}

def Frame.position : Frame n Λ γ L → Option L
  | .client x => some x
  | .clientKilled x => some x
  | _ => none

def positions (stk : List (Frame n Λ γ L)) : List L := stk.filterMap Frame.position

/-- A step of other kernel code at `x`, except on its data. It may also be stuck at a lock it has. -/
inductive ClientTurn (code : L → Instr Λ γ L D X) (x : L) (rest : List (Frame n Λ γ L)) :
    List (Frame n Λ γ L) → Prop
  | halt : ClientTurn code x rest (.client x :: rest)
  | acquire (lk : Λ) (k : L) : code x = .acquire lk k → ClientTurn code x rest (.client k :: rest)
  | release (lk : Λ) (k : L) : code x = .release lk k → ClientTurn code x rest (.client k :: rest)
  | sleep (ch : γ) (lk : Λ) (k : L) : code x = .sleep ch lk k →
      ClientTurn code x rest (.sleep (.client ch) (.client lk) .acquire :: .client k :: rest)
  | wakeup (ch : γ) (k : L) : code x = .wakeup ch k →
      ClientTurn code x rest (.wakeup (some (.client ch)) (.next 0) :: .client k :: rest)
  | killed (f : Bool → L) : code x = .killed f → ClientTurn code x rest (.clientKilled x :: rest)
  | ret : code x = .ret → ClientTurn code x rest rest

/-- What a step comes to for other kernel code. -/
inductive Turn (code : L → Instr Λ γ L D X) (ok : L → Prop) (free : Prop) (op : Op L X)
    (old : List (Frame n Λ γ L)) (d : D) : List (Frame n Λ γ L) → D → Prop
  | client (x : L) (rest new : List (Frame n Λ γ L)) : old = .client x :: rest →
      ClientTurn code x rest new → Turn code ok free op old d new d
  | killed (x : L) (rest : List (Frame n Λ γ L)) (f : Bool → L) (b : Bool) :
      old = .clientKilled x :: rest → code x = .killed f → ok (f b) →
      Turn code ok free op old d (.client (f b) :: rest) d
  | access (x : L) (rest : List (Frame n Λ γ L)) (f : X → D → D × L) (v : X) :
      old = .client x :: rest → code x = .access f → op = .access v →
      Turn code ok free op old d (.client (f v d).2 :: rest) (f v d).1
  | enter (x : L) : free → op = .syscall x ∧ old = [.user] ∨ op = .intr x →
      Turn code ok free op old d (.client x :: old) d
  | begin (g : Frame n Λ γ L) : free → g.enters → g.position = none → Turn code ok free op old d (g :: old) d
  | other (f : Frame n Λ γ L) (rest new : List (Frame n Λ γ L)) : old = f :: rest →
      f.position = none → Flow old new → Turn code ok free op old d new d
  | halt : Turn code ok free op old d old d

/-- The process runs or is going to. -/
def Proc.Alive (x : Proc n γ) : Prop := x.state ≠ .unused ∧ x.state ≠ .used ∧ x.state ≠ .zombie

section Alive

variable {s t : Sys n κ Λ γ L D} {c : κ} {p q : Fin n} {x : Proc n γ} {es : List Event}

theorem Sets.alive (hs : Sets s t q x es) (hp : (s.proc p).Alive)
    (hx : q = p → x.Alive ∧ x.pid = (s.proc p).pid) :
    (t.proc p).Alive ∧ (t.proc p).pid = (s.proc p).pid := by
  by_cases hq : p = q
  · rw [hq, hs.self, ← hq]
    exact hx hq.symm
  · rw [hs.of_ne hq]
    exact ⟨hp, rfl⟩

/-- A process that is alive and does not end keeps its pid. -/
theorem Change.alive {A : L → List (Lock n Λ) → Prop} (hc : Change s c t) (h : Inv A s) (hp : (s.proc p).Alive)
    (hexit : s.cur c = some p → ∀ status rest, s.stack (s.thread c) ≠ .kexit status .zombie :: rest) :
    (t.proc p).Alive ∧ (t.proc p).pid = (s.proc p).pid := by
  cases hc with
  | same hproc =>
    rw [hproc]
    exact ⟨hp, rfl⟩
  | run q x hx hst _ _ hs =>
    refine hs.alive hp fun he => ⟨?_, by rw [hx, he]⟩
    rcases hst with hst | hst <;> simp [Proc.Alive, hst]
  | sleep p' ch lk rest _ _ hs => exact hs.alive hp fun he => he ▸ ⟨by simp [Proc.Alive], rfl⟩
  | kill q pid rest _ _ hs =>
    refine hs.alive hp fun he => he ▸ ⟨?_, rfl⟩
    subst he
    unfold Proc.Alive Threads.kill
    split_ifs
    · simp
    · exact hp
  | setkilled p' _ hs | parent p' q rest _ _ hs | reparent p' q status rest _ _ _ hs =>
    exact hs.alive hp fun he => he ▸ ⟨he ▸ hp, rfl⟩
  | alloc q rest _ hu hproc =>
    have hq : p ≠ q := fun he => hp.1 (he ▸ hu)
    rw [hproc, Function.update_of_ne hq]
    exact ⟨hp, rfl⟩
  | abort q rest hstk hs =>
    refine hs.alive hp fun he => absurd ?_ hp.2.1
    obtain ⟨l, -, hfit⟩ := h.cpu c
    cases hcur : s.cur c with
    | none =>
      rw [hstk, hcur] at hfit
      exact hfit.1.elim
    | some p' => exact he ▸ h.child p' q _ (thread_some hcur ▸ hstk ▸ List.mem_cons_self) rfl
  | zombie p' status rest hcur hstk hs => exact hs.alive hp fun he => absurd hstk (hexit (he ▸ hcur) status rest)
  | reap p' q addr rest _ _ hz hs => exact hs.alive hp fun he => absurd (he ▸ hz) hp.2.2

end Alive

variable [DecidableEq κ] [DecidableEq Λ] {A : L → List (Lock n Λ) → Prop} {s t : Sys n κ Λ γ L D}
  {c : κ} {p : Fin n} {rest : List (Frame n Λ γ L)} {code : L → Instr Λ γ L D X} {ok : L → Prop}

theorem clientStep_turn {x : L} (hstk : s.stack (s.thread c) = .client x :: rest)
    (ht : clientStep s c rest code x = some t) : ClientTurn code x rest (t.stack (s.thread c)) := by
  have hnew : ∀ {u : Sys n κ Λ γ L D} {stk}, u.thread c = s.thread c → ClientTurn code x rest stk →
      ClientTurn code x rest ((u.goto c stk).stack (s.thread c)) := fun hu hturn => by
    rw [← hu, goto_stack]
    exact hturn
  have hhalt : ∀ {u : Sys n κ Λ γ L D}, u.stack = s.stack → ClientTurn code x rest (u.stack (s.thread c)) :=
    fun hu => by
      rw [hu, hstk]
      exact .halt
  have hacquire : ∀ k stk, s.acquire c k (fun s => s.goto c stk) = some t →
      ClientTurn code x rest stk → ClientTurn code x rest (t.stack (s.thread c)) := by
    intro k stk ht hturn
    unfold Sys.acquire at ht
    split_ifs at ht
    · cases ht
      exact hhalt rfl
    · cases ht
      exact hnew rfl hturn
  unfold clientStep at ht
  split at ht
  · next lk k hcode => exact hacquire _ _ ht (.acquire lk k hcode)
  · next lk k hcode =>
    cases ht
    unfold Sys.release
    split_ifs
    · exact hnew rfl (.release lk k hcode)
    · exact hhalt rfl
  · next ch lk k hcode =>
    cases ht
    exact hnew rfl (.sleep ch lk k hcode)
  · next ch k hcode =>
    cases ht
    exact hnew rfl (.wakeup ch k hcode)
  · next f hcode =>
    split at ht
    · exact hacquire _ _ ht (.killed f hcode)
    · cases ht
  · cases ht
  · next hcode =>
    cases ht
    exact hnew rfl (.ret hcode)

def Answers (code : L → Instr Λ γ L D X) (ok : L → Prop) (s : Sys n κ Λ γ L D) (c : κ) : Prop :=
  ∀ x rest f p, s.stack (s.thread c) = .clientKilled x :: rest → code x = .killed f →
    s.cur c = some p → ok (f (s.proc p).killed)

variable [DecidableEq γ] {a : κ × Op L X}

theorem Inv.turn (h : Inv A s) (hok : ∀ b, a.2 = .go b → Answers code ok s a.1)
    (ht : Threads.step code s a = some t) :
    Turn code ok (Holding s a.1 []) a.2 (s.stack (s.thread a.1)) s.data (t.stack (s.thread a.1)) t.data := by
  rcases step_cases ht with ⟨b, f, rest, hop, hstk, hgo⟩ | ⟨v, x, rest, hop, hstk, hacc⟩ | hent
  · have he := Effect.goStep h hstk hgo
    rw [he.data]
    cases f with
    | client x => exact .client x rest _ hstk (clientStep_turn hstk hgo)
    | clientKilled x =>
      obtain ⟨l, hl, hfit⟩ := h.cpu a.1
      rw [hstk] at hfit
      cases hcur : s.cur a.1 with
      | none =>
        rw [hcur] at hfit
        exact hfit.1.elim
      | some p =>
        simp only [goStep, h.cur _ p hcur, procStep, clientKilledStep] at hgo
        split at hgo
        · next f hcode =>
          cases hgo
          unfold Sys.release
          split_ifs
          · have hturn : Turn code ok (Holding s a.1 []) a.2 (s.stack (s.thread a.1)) s.data
                (.client (f (s.proc p).killed) :: rest) s.data :=
              .killed x rest f _ hstk hcode (hok b hop x rest f p hstk hcode hcur)
            rwa [← @goto_stack _ _ _ _ _ _ a.1 (.client (f (s.proc p).killed) :: rest) _
              (s.drop a.1 (.proc p))] at hturn
          · exact .halt
        · cases hgo
    | _ => exact .other _ rest _ hstk rfl he.flow
  · obtain ⟨f, hcode, rfl⟩ := accessStep_cases hacc
    have hturn : Turn code ok (Holding s a.1 []) a.2 (s.stack (s.thread a.1)) s.data
        (.client (f v s.data).2 :: rest) (f v s.data).1 := .access x rest f v hstk hcode hop
    rwa [← @goto_stack _ _ _ _ _ _ a.1 (.client (f v s.data).2 :: rest) _
      { s with data := (f v s.data).1 }] at hturn
  · rcases enterStep_cases hent with rfl | ⟨f, hf, hb, rfl⟩
    · exact .halt
    · have hfree := h.begins_free hb
      rw [goto_stack]
      cases hop : a.2 with
      | syscall x =>
        rw [hop] at hf hb
        cases hf
        exact .enter x hfree (.inl ⟨rfl, eq_user hb⟩)
      | intr x =>
        rw [hop] at hf
        cases hf
        exact .enter x hfree (.inr rfl)
      | _ =>
        rw [hop] at hf
        cases hf <;> exact .begin _ hfree trivial rfl

end Xv6.Threads
