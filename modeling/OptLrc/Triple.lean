import OptLrc.Process

namespace OptLrc.Process.Proc

open OptLrc.Memory

variable {Req Rep S σ α β : Type} {E : Env Req Rep σ} {P P' : S → Prop} {Q Q' : α → S → Prop}
  {R : β → S → Prop}

/-- What holds of the client when the program ends without a fault. -/
def Triple (E : Env Req Rep σ) (P : S → Prop) (p : Proc Req Rep S α) (Q : α → S → Prop) : Prop :=
  ∀ s x a s' y, P s → p.exec E s x = (.ok (a, s'), y) → Q a s'

theorem Triple.mono {p : Proc Req Rep S α} (h : Triple E P p Q) (hP : ∀ s, P' s → P s)
    (hQ : ∀ a s, Q a s → Q' a s) : Triple E P' p Q' :=
  fun s x a s' y hs he => hQ a s' (h s x a s' y (hP s hs) he)

theorem triple_true (p : Proc Req Rep S α) : Triple E P p (fun _ _ => True) :=
  fun _ _ _ _ _ _ _ => trivial

theorem triple_pure {a : α} (h : ∀ s, P s → Q a s) : Triple E P (Pure.pure a) Q := by
  intro s x b s' y hs he
  cases he
  exact h s hs

theorem triple_get {Q : S → S → Prop} (h : ∀ s, P s → Q s s) :
    Triple E P (get : Proc Req Rep S S) Q := by
  intro s x b s' y hs he
  cases he
  exact h s hs

theorem triple_modify {f : S → S} {Q : Unit → S → Prop} (h : ∀ s, P s → Q () (f s)) :
    Triple E P (modify f : Proc Req Rep S Unit) Q := by
  intro s x b s' y hs he
  cases he
  exact h s hs

theorem triple_lift {e : Except Fault α} (h : ∀ a, e = .ok a → ∀ s, P s → Q a s) :
    Triple E P (lift e : Proc Req Rep S α) Q := by
  intro s x b s' y hs he
  cases e with
  | error err => cases he
  | ok a =>
    cases he
    exact h _ rfl s hs

theorem Triple.bind {p : Proc Req Rep S α} {f : α → Proc Req Rep S β} (h : Triple E P p Q)
    (hf : ∀ a, Triple E (Q a) (f a) R) : Triple E P (p >>= f) R := by
  intro s x b s' y hs he
  obtain ⟨a, s1, y1, hp, he⟩ := exec_bind_eq_ok E s x he
  exact hf a s1 y1 b s' y (h s x a s1 y1 hs hp) he

theorem Triple.each {f : α → Proc Req Rep S Unit} {as : List α}
    (h : ∀ a ∈ as, Triple E P (f a) (fun _ => P)) : Triple E P (Proc.each f as) (fun _ => P) := by
  induction as with
  | nil => exact triple_pure (fun _ hs => hs)
  | cons a as ih =>
    exact (h a (by simp)).bind (fun _ => ih (fun b hb => h b (by simp [hb])))

end OptLrc.Process.Proc
