import OptLrc.Process

namespace OptLrc.Process

open OptLrc.Memory

variable {Req Rep S σ τ α β : Type}

namespace Net

/-- The program may end with the result after it has sent the requests, for some replies. -/
inductive Ends : Net Req Rep α → List (Nat × Req) → α → Prop
  | ret (a : α) : Ends (.ret a) [] a
  | send (s : Nat) (q : Req) (k : List Rep → Net Req Rep α) (replies : List Rep) (trace : List (Nat × Req)) (a : α)
      (h : Ends (k replies) trace a) : Ends (.send s q k) ((s, q) :: trace) a
  | poll (s t : Nat) (rest : List Nat) (k : Nat → Net Req Rep α) (i : Nat) (trace : List (Nat × Req)) (a : α)
      (h : Ends (k i) trace a) : Ends (.poll s t rest k) trace a

theorem ends_bind {p : Net Req Rep α} {f : α → Net Req Rep β} {trace : List (Nat × Req)} {b : β}
    (h : Ends (p.bind f) trace b) :
    ∃ before a after, trace = before ++ after ∧ Ends p before a ∧ Ends (f a) after b := by
  induction p generalizing trace with
  | ret a => exact ⟨[], a, trace, rfl, .ret a, h⟩
  | send s q k ih =>
    cases h with
    | send _ _ _ replies trace _ h =>
      obtain ⟨before, a, after, rfl, hp, hf⟩ := ih replies h
      exact ⟨(s, q) :: before, a, after, rfl, .send s q k replies before a hp, hf⟩
  | poll s t rest k ih =>
    cases h with
    | poll _ _ _ _ i _ _ h =>
      obtain ⟨before, a, after, rfl, hp, hf⟩ := ih i h
      exact ⟨before, a, after, rfl, .poll s t rest k i before a hp, hf⟩

theorem ends_run (E : Env Req Rep σ) (p : Net Req Rep α) (x : σ) : ∃ trace, p.Ends trace (p.run E x).1 := by
  induction p generalizing x with
  | ret a => exact ⟨[], .ret a⟩
  | send s q k ih =>
    obtain ⟨trace, h⟩ := ih (E.serve s q x).1 (E.serve s q x).2
    exact ⟨(s, q) :: trace, .send s q k _ trace _ h⟩
  | poll s t rest k ih =>
    obtain ⟨trace, h⟩ := ih (E.pick s t rest x).1 (E.pick s t rest x).2
    exact ⟨trace, .poll s t rest k _ trace _ h⟩

/-- One step of a program that has not ended. -/
def step (E : Env Req Rep σ) : Net Req Rep α → σ → Net Req Rep α × σ
  | ret a, x => (ret a, x)
  | send s q k, x => (k (E.serve s q x).1, (E.serve s q x).2)
  | poll s t rest k, x => (k (E.pick s t rest x).1, (E.pick s t rest x).2)

/-- Two programs over the same servers, whose steps interleave as the schedule says. -/
def interleave (E : Env Req Rep σ) : List Bool → Net Req Rep α → Net Req Rep β → σ →
    Net Req Rep α × Net Req Rep β × σ
  | [], p, q, x => (p, q, x)
  | true :: schedule, p, q, x => interleave E schedule (p.step E x).1 q (p.step E x).2
  | false :: schedule, p, q, x => interleave E schedule p (q.step E x).1 (q.step E x).2

/-- The result of a program that has ended without a fault. -/
def ended : Net Req Rep (Except Fault α) → Option α
  | .ret (.ok a) => some a
  | _ => none

theorem eq_of_ended {p : Net Req Rep (Except Fault α)} (h : p.ended.isSome = true) : ∃ a, p = .ret (.ok a) := by
  cases p with
  | ret r =>
    cases r with
    | ok a => exact ⟨a, rfl⟩
    | error e => cases h
  | send s q k => cases h
  | poll s t rest k => cases h

theorem eq_of_both_ended {r : Net Req Rep (Except Fault α) × Net Req Rep (Except Fault β) × σ}
    (h : r.1.ended.isSome = true) (h' : r.2.1.ended.isSome = true) :
    ∃ a b, r = (.ret (.ok a), .ret (.ok b), r.2.2) := by
  obtain ⟨p, q, y⟩ := r
  obtain ⟨a, rfl⟩ := eq_of_ended h
  obtain ⟨b, rfl⟩ := eq_of_ended h'
  exact ⟨a, b, rfl⟩

/-- The requests of one of the two programs. -/
def requests (first : Bool) (trace : List (Bool × Nat × Req)) : List (Nat × Req) :=
  (trace.filter (fun e => e.1 = first)).map Prod.snd

theorem mem_requests {first : Bool} {trace : List (Bool × Nat × Req)} {q : Nat × Req} :
    q ∈ requests first trace ↔ (first, q) ∈ trace := by
  simp [requests]

variable {E : Env Req Rep σ} {view : σ → τ} (serve : Nat → Req → τ → τ)

/-- What the servers hold after two interleaved programs have ended is what they hold after some
order of the requests of both. -/
theorem interleave_ends (hserve : ∀ s q x, view (E.serve s q x).2 = serve s q (view x))
    (hpick : ∀ s t rest x, view (E.pick s t rest x).2 = view x) {schedule : List Bool} {p : Net Req Rep α}
    {p' : Net Req Rep β} {x y : σ} {a : α} {b : β} (h : interleave E schedule p p' x = (.ret a, .ret b, y)) :
    ∃ trace, p.Ends (requests true trace) a ∧ p'.Ends (requests false trace) b ∧
      view y = trace.foldl (fun w e => serve e.2.1 e.2.2 w) (view x) := by
  induction schedule generalizing p p' x with
  | nil =>
    cases h
    exact ⟨[], .ret a, .ret b, rfl⟩
  | cons first schedule ih =>
    cases first with
    | true =>
      obtain ⟨trace, hp, hp', hview⟩ := ih h
      cases p with
      | ret c => exact ⟨trace, hp, hp', hview⟩
      | send s q k =>
        refine ⟨(true, s, q) :: trace, .send s q k _ _ a hp, hp', ?_⟩
        rw [hview, step, hserve]
        rfl
      | poll s t rest k =>
        refine ⟨trace, .poll s t rest k _ _ a hp, hp', ?_⟩
        rw [hview, step, hpick]
    | false =>
      obtain ⟨trace, hp, hp', hview⟩ := ih h
      cases p' with
      | ret c => exact ⟨trace, hp, hp', hview⟩
      | send s q k =>
        refine ⟨(false, s, q) :: trace, hp, .send s q k _ _ b hp', ?_⟩
        rw [hview, step, hserve]
        rfl
      | poll s t rest k =>
        refine ⟨trace, hp, .poll s t rest k _ _ b hp', ?_⟩
        rw [hview, step, hpick]

end Net

namespace Proc

variable {P P' : S → Prop}

/-- What holds of the client and of the requests that were sent when the program ends without a
fault, whatever the replies were. -/
def Traced (P : S → Prop) (p : Proc Req Rep S α) (Q : α → S → List (Nat × Req) → Prop) : Prop :=
  ∀ s trace a s', P s → (p s).Ends trace (.ok (a, s')) → Q a s' trace

theorem Traced.mono {p : Proc Req Rep S α} {Q Q' : α → S → List (Nat × Req) → Prop} (h : Traced P p Q)
    (hP : ∀ s, P' s → P s) (hQ : ∀ a s trace, Q a s trace → Q' a s trace) : Traced P' p Q' :=
  fun s trace a s' hs he => hQ a s' trace (h s trace a s' (hP s hs) he)

theorem traced_pure {a : α} {Q : α → S → List (Nat × Req) → Prop} (h : ∀ s, P s → Q a s []) :
    Traced P (Pure.pure a : Proc Req Rep S α) Q := by
  intro s trace b s' hs he
  cases he
  exact h s hs

theorem traced_get {Q : S → S → List (Nat × Req) → Prop} (h : ∀ s, P s → Q s s []) :
    Traced P (get : Proc Req Rep S S) Q := by
  intro s trace b s' hs he
  cases he
  exact h s hs

theorem traced_modify {f : S → S} {Q : Unit → S → List (Nat × Req) → Prop} (h : ∀ s, P s → Q () (f s) []) :
    Traced P (modify f : Proc Req Rep S Unit) Q := by
  intro s trace b s' hs he
  cases he
  exact h s hs

theorem traced_lift {e : Except Fault α} {Q : α → S → List (Nat × Req) → Prop}
    (h : ∀ a, e = .ok a → ∀ s, P s → Q a s []) : Traced P (lift e : Proc Req Rep S α) Q := by
  intro s trace b s' hs he
  cases e with
  | error err => cases he
  | ok a =>
    cases he
    exact h _ rfl s hs

theorem traced_send {Q : List Rep → S → List (Nat × Req) → Prop} (i : Nat) (q : Req)
    (h : ∀ replies s, P s → Q replies s [(i, q)]) : Traced P (send i q : Proc Req Rep S (List Rep)) Q := by
  intro s trace b s' hs he
  cases he with
  | send _ _ _ replies _ _ he =>
    cases he
    exact h _ s hs

theorem traced_poll {Q : Nat → S → List (Nat × Req) → Prop} (i j : Nat) (rest : List Nat)
    (h : ∀ k s, P s → Q k s []) : Traced P (poll i j rest : Proc Req Rep S Nat) Q := by
  intro s trace b s' hs he
  cases he with
  | poll _ _ _ _ k _ _ he =>
    cases he
    exact h _ s hs

/-- The requests of the second half follow those of the first. -/
theorem Traced.bind {p : Proc Req Rep S α} {f : α → Proc Req Rep S β} {Q : α → S → List (Nat × Req) → Prop}
    {R : β → S → List (Nat × Req) → Prop} (h : Traced P p Q)
    (hf : ∀ a before, Traced (fun s => Q a s before) (f a) (fun b s after => R b s (before ++ after))) :
    Traced P (p >>= f) R := by
  intro s trace b s' hs he
  obtain ⟨before, r, after, rfl, hp, he⟩ := Net.ends_bind (p := p s) he
  cases r with
  | error err => cases he
  | ok r => exact hf r.1 before r.2 after b s' (h s before r.1 r.2 hs hp) he

section Steps

variable {Q : β → S → List (Nat × Req) → Prop}

theorem Traced.get_bind {f : S → Proc Req Rep S β} (h : ∀ s, P s → Traced (fun s' => s' = s) (f s) Q) :
    Traced P (get >>= f) Q :=
  fun s trace b s' hs he => h s hs s trace b s' rfl he

theorem Traced.lift_bind {e : Except Fault α} {f : α → Proc Req Rep S β} (h : ∀ a, e = .ok a → Traced P (f a) Q) :
    Traced P (lift e >>= f) Q := by
  intro s trace b s' hs he
  cases e with
  | error err => cases he
  | ok a => exact h a rfl s trace b s' hs he

theorem Traced.modify_bind (P' : S → Prop) {g : S → S} {f : Unit → Proc Req Rep S β} (hg : ∀ s, P s → P' (g s))
    (h : Traced P' (f ()) Q) : Traced P (modify g >>= f) Q :=
  fun s trace b s' hs he => h (g s) trace b s' (hg s hs) he

theorem Traced.and {p : Proc Req Rep S β} {R : β → S → List (Nat × Req) → Prop} (h : Traced P p Q)
    (h' : Traced P p R) : Traced P p (fun b s trace => Q b s trace ∧ R b s trace) :=
  fun s trace b s' hs he => ⟨h s trace b s' hs he, h' s trace b s' hs he⟩

end Steps

/-- Each turn of a loop sends its request. -/
theorem Traced.each_mem {f : α → Proc Req Rep S Unit} {l : List α} {q : α → Nat × Req}
    (h : ∀ a ∈ l, Traced P (f a) (fun _ s trace => P s ∧ q a ∈ trace)) :
    Traced P (Proc.each f l) (fun _ s trace => P s ∧ ∀ a ∈ l, q a ∈ trace) := by
  induction l with
  | nil => exact traced_pure (fun s hs => ⟨hs, by simp⟩)
  | cons a l ih =>
    refine (h a (by simp)).bind (fun _ before => ?_)
    intro s after b s' hs he
    obtain ⟨hs', hrest⟩ := ih (fun b hb => h b (by simp [hb])) s after b s' hs.1 he
    refine ⟨hs', fun a' ha' => ?_⟩
    rcases List.mem_cons.mp ha' with rfl | ha'
    · exact List.mem_append_left _ hs.2
    · exact List.mem_append_right _ (hrest a' ha')

/-- The program sends only such requests. -/
def Sends (A : Nat × Req → Prop) (P : S → Prop) (p : Proc Req Rep S α) (Q : α → S → Prop) : Prop :=
  Traced P p (fun a s trace => (∀ q ∈ trace, A q) ∧ Q a s)

section Sends

variable {A : Nat × Req → Prop} {Q : α → S → Prop} {R : β → S → Prop}

theorem Sends.mono {p : Proc Req Rep S α} {Q' : α → S → Prop} (h : Sends A P p Q) (hP : ∀ s, P' s → P s)
    (hQ : ∀ a s, Q a s → Q' a s) : Sends A P' p Q' :=
  Traced.mono h hP (fun a s _ hq => ⟨hq.1, hQ a s hq.2⟩)

theorem sends_pure {a : α} (h : ∀ s, P s → Q a s) : Sends A P (Pure.pure a : Proc Req Rep S α) Q :=
  traced_pure (fun s hs => ⟨by simp, h s hs⟩)

theorem sends_get {Q : S → S → Prop} (h : ∀ s, P s → Q s s) : Sends A P (get : Proc Req Rep S S) Q :=
  traced_get (fun s hs => ⟨by simp, h s hs⟩)

theorem sends_modify {f : S → S} {Q : Unit → S → Prop} (h : ∀ s, P s → Q () (f s)) :
    Sends A P (modify f : Proc Req Rep S Unit) Q :=
  traced_modify (fun s hs => ⟨by simp, h s hs⟩)

theorem sends_lift {e : Except Fault α} (h : ∀ a, e = .ok a → ∀ s, P s → Q a s) :
    Sends A P (lift e : Proc Req Rep S α) Q :=
  traced_lift (fun a he s hs => ⟨by simp, h a he s hs⟩)

theorem sends_send {Q : List Rep → S → Prop} {i : Nat} {q : Req} (hq : A (i, q))
    (h : ∀ replies s, P s → Q replies s) : Sends A P (send i q : Proc Req Rep S (List Rep)) Q :=
  traced_send i q (fun replies s hs => ⟨by simpa using hq, h replies s hs⟩)

theorem sends_poll {Q : Nat → S → Prop} (i j : Nat) (rest : List Nat) (h : ∀ k s, P s → Q k s) :
    Sends A P (poll i j rest : Proc Req Rep S Nat) Q :=
  traced_poll i j rest (fun k s hs => ⟨by simp, h k s hs⟩)

theorem Sends.bind {p : Proc Req Rep S α} {f : α → Proc Req Rep S β} (h : Sends A P p Q)
    (hf : ∀ a, Sends A (Q a) (f a) R) : Sends A P (p >>= f) R := by
  refine Traced.bind h (fun a before => ?_)
  intro s after b s' hs he
  obtain ⟨hafter, hR⟩ := hf a s after b s' hs.2 he
  refine ⟨fun q hq => ?_, hR⟩
  rcases List.mem_append.mp hq with hq | hq
  · exact hs.1 q hq
  · exact hafter q hq

theorem Sends.each {f : α → Proc Req Rep S Unit} {l : List α} (h : ∀ a ∈ l, Sends A P (f a) (fun _ => P)) :
    Sends A P (Proc.each f l) (fun _ => P) := by
  induction l with
  | nil => exact sends_pure (fun _ hs => hs)
  | cons a l ih => exact (h a (by simp)).bind (fun _ => ih (fun b hb => h b (by simp [hb])))

end Sends

end Proc

end OptLrc.Process
