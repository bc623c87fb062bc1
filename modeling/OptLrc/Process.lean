import OptLrc.Memory

namespace OptLrc.Process

open OptLrc.Memory

/-- A client program over a set of numbered servers: it sends requests, each
answered by a list of replies, and it asks which of several servers is
readable first. -/
inductive Net (Req Rep α : Type) where
  | ret (a : α)
  | send (s : Nat) (q : Req) (k : List Rep → Net Req Rep α)
  | poll (s t : Nat) (rest : List Nat) (k : Nat → Net Req Rep α)

variable {Req Rep α β γ S σ τ : Type}

namespace Net

def bind : Net Req Rep α → (α → Net Req Rep β) → Net Req Rep β
  | ret a, f => f a
  | send s q k, f => send s q (fun reps => (k reps).bind f)
  | poll s t rest k, f => poll s t rest (fun i => (k i).bind f)

instance : Monad (Net Req Rep) where
  pure := ret
  bind := bind

end Net

/-- Everything outside the client: what the servers answer and do, and in
which order their answers become readable. -/
structure Env (Req Rep σ : Type) where
  serve : Nat → Req → σ → List Rep × σ
  pick : Nat → Nat → List Nat → σ → Nat × σ
  pick_mem : ∀ s t rest x, (pick s t rest x).1 ∈ s :: t :: rest

namespace Env

/-- Send several requests to one server: all the replies, in order. -/
def exchange (E : Env Req Rep σ) (s : Nat) : List Req → σ → List Rep × σ
  | [], x => ([], x)
  | q :: qs, x =>
    let (replies, x) := E.serve s q x
    let (rest, x) := E.exchange s qs x
    (replies ++ rest, x)

/-- The environment chose readable servers, and nothing else happened. -/
inductive Picks (E : Env Req Rep σ) : σ → σ → Prop
  | refl (x : σ) : Picks E x x
  | step (s t : Nat) (rest : List Nat) (x y : σ) (h : Picks E (E.pick s t rest x).2 y) : Picks E x y

theorem Picks.trans {E : Env Req Rep σ} {x y z : σ} (h : E.Picks x y) (h' : E.Picks y z) :
    E.Picks x z := by
  induction h with
  | refl x => exact h'
  | step s t rest x y h ih => exact .step s t rest x z (ih h')

theorem Picks.preserves {E : Env Req Rep σ} {f : σ → τ}
    (hf : ∀ s t rest x, f (E.pick s t rest x).2 = f x) {x y : σ} (h : E.Picks x y) : f y = f x := by
  induction h with
  | refl x => rfl
  | step s t rest x y h ih => rw [ih, hf]

end Env

namespace Net

def run (E : Env Req Rep σ) : Net Req Rep α → σ → α × σ
  | ret a, x => (a, x)
  | send s q k, x => (k (E.serve s q x).1).run E (E.serve s q x).2
  | poll s t rest k, x => (k (E.pick s t rest x).1).run E (E.pick s t rest x).2

theorem run_bind (E : Env Req Rep σ) (p : Net Req Rep α) (f : α → Net Req Rep β) (x : σ) :
    (p.bind f).run E x = (f (p.run E x).1).run E (p.run E x).2 := by
  induction p generalizing x with
  | ret a => rfl
  | send s q k ih => simp only [bind, run, ih]
  | poll s t rest k ih => simp only [bind, run, ih]

end Net

/-- A program with a mutable client state, which may also fault. -/
def Proc (Req Rep S α : Type) := S → Net Req Rep (Except Fault (α × S))

namespace Proc

def pure (a : α) : Proc Req Rep S α := fun s => .ret (.ok (a, s))

def bind (p : Proc Req Rep S α) (f : α → Proc Req Rep S β) : Proc Req Rep S β := fun s =>
  (p s).bind (fun
    | .ok (a, s') => f a s'
    | .error e => .ret (.error e))

instance : Monad (Proc Req Rep S) where
  pure := pure
  bind := bind

def get : Proc Req Rep S S := fun s => .ret (.ok (s, s))

def modify (f : S → S) : Proc Req Rep S Unit := fun s => .ret (.ok ((), f s))

def lift (e : Except Fault α) : Proc Req Rep S α := fun s =>
  .ret (match e with
    | .ok a => .ok (a, s)
    | .error e => .error e)

def fault (e : Fault) : Proc Req Rep S α := lift (.error e)

def send (s : Nat) (q : Req) : Proc Req Rep S (List Rep) := fun c =>
  .send s q (fun reps => .ret (.ok (reps, c)))

def poll (s t : Nat) (rest : List Nat) : Proc Req Rep S Nat := fun c =>
  .poll s t rest (fun i => .ret (.ok (i, c)))

/-- Run an action once for each element, in order. -/
def each (f : α → Proc Req Rep S Unit) : List α → Proc Req Rep S Unit
  | [] => pure ()
  | a :: as => bind (f a) (fun _ => each f as)

def exec (E : Env Req Rep σ) (p : Proc Req Rep S α) (s : S) (x : σ) :
    Except Fault (α × S) × σ := (p s).run E x

/-- Total correctness: the program ends without a fault, in a state that
satisfies the postcondition. -/
def Ok (E : Env Req Rep σ) (p : Proc Req Rep S α) (s : S) (x : σ) (Q : α → S → σ → Prop) : Prop :=
  ∃ a s' x', p.exec E s x = (.ok (a, s'), x') ∧ Q a s' x'

section Exec

variable (E : Env Req Rep σ) (s : S) (x : σ)

@[simp] theorem exec_pure (a : α) :
    (Pure.pure a : Proc Req Rep S α).exec E s x = (.ok (a, s), x) := rfl

@[simp] theorem exec_get : (get : Proc Req Rep S S).exec E s x = (.ok (s, s), x) := rfl

@[simp] theorem exec_modify (f : S → S) :
    (modify f : Proc Req Rep S Unit).exec E s x = (.ok ((), f s), x) := rfl

@[simp] theorem exec_lift_ok (a : α) :
    (lift (.ok a) : Proc Req Rep S α).exec E s x = (.ok (a, s), x) := rfl

@[simp] theorem exec_lift_error (e : Fault) :
    (lift (.error e) : Proc Req Rep S α).exec E s x = (.error e, x) := rfl

@[simp] theorem exec_fault (e : Fault) :
    (fault e : Proc Req Rep S α).exec E s x = (.error e, x) := rfl

@[simp] theorem exec_send (i : Nat) (q : Req) :
    (send i q : Proc Req Rep S (List Rep)).exec E s x =
      (.ok ((E.serve i q x).1, s), (E.serve i q x).2) := rfl

@[simp] theorem exec_poll (i j : Nat) (rest : List Nat) :
    (poll i j rest : Proc Req Rep S Nat).exec E s x =
      (.ok ((E.pick i j rest x).1, s), (E.pick i j rest x).2) := rfl

theorem exec_bind (p : Proc Req Rep S α) (f : α → Proc Req Rep S β) :
    (p >>= f).exec E s x =
      match p.exec E s x with
      | (.ok (a, s'), x') => (f a).exec E s' x'
      | (.error e, x') => (.error e, x') := by
  change ((p s).bind _).run E x = _
  rw [Net.run_bind]
  unfold exec
  cases h : ((p s).run E x).1 with
  | ok r => rw [show (p s).run E x = (.ok r, ((p s).run E x).2) from Prod.ext h rfl]
  | error e =>
    rw [show (p s).run E x = (.error e, ((p s).run E x).2) from Prod.ext h rfl]
    rfl

theorem exec_bind_ok {p : Proc Req Rep S α} {f : α → Proc Req Rep S β} {s' : S} {x' : σ} {a : α}
    (h : p.exec E s x = (.ok (a, s'), x')) : (p >>= f).exec E s x = (f a).exec E s' x' := by
  rw [exec_bind, h]

theorem exec_bind_error {p : Proc Req Rep S α} {f : α → Proc Req Rep S β} {x' : σ} {e : Fault}
    (h : p.exec E s x = (.error e, x')) : (p >>= f).exec E s x = (.error e, x') := by
  rw [exec_bind, h]

/-- A program that ends without a fault does so through both of its halves. -/
theorem exec_bind_eq_ok {p : Proc Req Rep S α} {f : α → Proc Req Rep S β} {b : β} {s' : S} {y : σ}
    (h : (p >>= f).exec E s x = (.ok (b, s'), y)) :
    ∃ a s1 y1, p.exec E s x = (.ok (a, s1), y1) ∧ (f a).exec E s1 y1 = (.ok (b, s'), y) := by
  rw [exec_bind] at h
  cases hp : p.exec E s x with
  | mk res z =>
    rw [hp] at h
    cases res with
    | error e => cases h
    | ok a => exact ⟨a.1, a.2, z, rfl, h⟩

@[simp] theorem exec_each_nil (f : α → Proc Req Rep S Unit) :
    (each f []).exec E s x = (.ok ((), s), x) := rfl

theorem exec_each_cons (f : α → Proc Req Rep S Unit) (a : α) (as : List α) :
    (each f (a :: as)).exec E s x = (f a >>= fun _ => each f as).exec E s x := rfl

theorem exec_each_append {f : α → Proc Req Rep S Unit} {as : List α} {s' : S} {x' : σ} (bs : List α)
    (h : (each f as).exec E s x = (.ok ((), s'), x')) :
    (each f (as ++ bs)).exec E s x = (each f bs).exec E s' x' := by
  induction as generalizing s x with
  | nil =>
    obtain ⟨h1, rfl⟩ := Prod.mk.inj h
    obtain ⟨-, rfl⟩ := Prod.mk.inj (Except.ok.inj h1)
    rfl
  | cons a as ih =>
    rw [exec_each_cons, exec_bind] at h
    rw [List.cons_append, exec_each_cons, exec_bind]
    cases hf : (f a).exec E s x with
    | mk r y =>
      rw [hf] at h
      cases r with
      | error e =>
        exact absurd h (by simp)
      | ok v => exact ih v.2 y h

end Exec

section Rules

variable {E : Env Req Rep σ} {s : S} {x : σ}

theorem Ok.mono {p : Proc Req Rep S α} {Q R : α → S → σ → Prop} (h : p.Ok E s x Q)
    (hQ : ∀ a s' x', Q a s' x' → R a s' x') : p.Ok E s x R := by
  obtain ⟨a, s', x', he, hq⟩ := h
  exact ⟨a, s', x', he, hQ a s' x' hq⟩

theorem Ok.bind {p : Proc Req Rep S α} {f : α → Proc Req Rep S β} {Q : α → S → σ → Prop}
    {R : β → S → σ → Prop} (h : p.Ok E s x Q)
    (hf : ∀ a s' x', Q a s' x' → (f a).Ok E s' x' R) : (p >>= f).Ok E s x R := by
  obtain ⟨a, s', x', he, hq⟩ := h
  obtain ⟨b, s'', x'', he', hr⟩ := hf a s' x' hq
  exact ⟨b, s'', x'', by rw [exec_bind_ok E s x he, he'], hr⟩

theorem ok_pure {a : α} {Q : α → S → σ → Prop} (h : Q a s x) :
    (Pure.pure a : Proc Req Rep S α).Ok E s x Q := ⟨a, s, x, rfl, h⟩

/-- A state invariant that each element's action keeps holds after all of them. -/
theorem Ok.each {f : α → Proc Req Rep S Unit} {as : List α} {I : List α → S → σ → Prop}
    (h0 : I [] s x) (hstep : ∀ done a rest s' x', as = done ++ a :: rest → I done s' x' →
      (f a).Ok E s' x' (fun _ => I (done ++ [a]))) :
    (Proc.each f as).Ok E s x (fun _ => I as) := by
  suffices H : ∀ done rest s' x', as = done ++ rest → I done s' x' →
      (Proc.each f rest).Ok E s' x' (fun _ => I as) from H [] as s x rfl h0
  intro done rest
  induction rest generalizing done with
  | nil =>
    intro s' x' he hi
    exact ok_pure (by simpa [he] using hi)
  | cons a rest ih =>
    intro s' x' he hi
    exact Ok.bind (hstep done a rest s' x' he hi)
      (fun _ s'' x'' hi' => ih (done ++ [a]) s'' x'' (by simp [he]) hi')

end Rules

/-- The program runs into undefined behaviour. -/
def Faults (E : Env Req Rep σ) (p : Proc Req Rep S α) (s : S) (x : σ) : Prop :=
  ∃ e y, p.exec E s x = (.error e, y)

section Faults

variable {E : Env Req Rep σ} {s : S} {x : σ}

theorem Faults.bind {p : Proc Req Rep S α} (h : p.Faults E s x) (f : α → Proc Req Rep S β) :
    (p >>= f).Faults E s x := by
  obtain ⟨e, y, he⟩ := h
  exact ⟨e, y, exec_bind_error E s x he⟩

theorem faults_lift {e : Fault} (r : Except Fault α) (h : r = .error e) :
    (lift r : Proc Req Rep S α).Faults E s x := ⟨e, x, by rw [h]; rfl⟩

/-- A program faults when its second half does, whatever the first half does. -/
theorem faults_bind {p : Proc Req Rep S α} {f : α → Proc Req Rep S β}
    (hf : ∀ a s' x', p.exec E s x = (.ok (a, s'), x') → (f a).Faults E s' x') :
    (p >>= f).Faults E s x := by
  cases h : p.exec E s x with
  | mk res y =>
    cases res with
    | error e => exact ⟨e, y, exec_bind_error E s x h⟩
    | ok a =>
      obtain ⟨e, z, he⟩ := hf a.1 a.2 y h
      exact ⟨e, z, by rw [exec_bind_ok E s x h, he]⟩

/-- A loop faults when one of its turns does, in every state that the turns before it may leave. -/
theorem faults_each {f : α → Proc Req Rep S Unit} {I : S → Prop}
    (hI : ∀ a s x s' x', I s → (f a).exec E s x = (.ok ((), s'), x') → I s') {as : List α} {a : α}
    (ha : a ∈ as) (hf : ∀ s x, I s → (f a).Faults E s x) (hs : I s) : (each f as).Faults E s x := by
  induction as generalizing s x with
  | nil => cases ha
  | cons b as ih =>
    by_cases h : b = a
    · subst h
      exact (hf s x hs).bind _
    · refine faults_bind (fun u s' x' he => ?_)
      exact ih ((List.mem_cons.mp ha).resolve_left (Ne.symm h)) (hI b s x s' x' hs he)

end Faults

end Proc

end OptLrc.Process
