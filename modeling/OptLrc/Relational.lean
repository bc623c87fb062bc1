import OptLrc.Triple

namespace OptLrc.Process.Proc

open OptLrc.Memory

variable {Req Rep S σ α α' β β' : Type} {E : Env Req Rep σ} {z z' : S × σ}

/-- Two programs, each from a state of its own: both run into undefined behaviour, or both end, in
states that are related. -/
def Both (E : Env Req Rep σ) (p : Proc Req Rep S α) (p' : Proc Req Rep S α') (z z' : S × σ)
    (Q : α → S × σ → α' → S × σ → Prop) : Prop :=
  (p.Faults E z.1 z.2 ∧ p'.Faults E z'.1 z'.2) ∨
    ∃ a t a' t', p.exec E z.1 z.2 = (.ok (a, t.1), t.2) ∧ p'.exec E z'.1 z'.2 = (.ok (a', t'.1), t'.2) ∧ Q a t a' t'

section Rules

variable {p : Proc Req Rep S α} {p' : Proc Req Rep S α'} {Q : α → S × σ → α' → S × σ → Prop}

theorem both_ok {a : α} {s : S} {x : σ} {a' : α'} {s' : S} {x' : σ} (h : p.exec E z.1 z.2 = (.ok (a, s), x))
    (h' : p'.exec E z'.1 z'.2 = (.ok (a', s'), x')) (hQ : Q a (s, x) a' (s', x')) : Both E p p' z z' Q :=
  Or.inr ⟨a, (s, x), a', (s', x'), h, h', hQ⟩

theorem both_faults (h : p.Faults E z.1 z.2) (h' : p'.Faults E z'.1 z'.2) : Both E p p' z z' Q := Or.inl ⟨h, h'⟩

theorem Both.mono (h : Both E p p' z z' Q) {R : α → S × σ → α' → S × σ → Prop}
    (hR : ∀ a t a' t', Q a t a' t' → R a t a' t') : Both E p p' z z' R := by
  rcases h with h | ⟨a, t, a', t', he, he', hQ⟩
  · exact Or.inl h
  · exact Or.inr ⟨a, t, a', t', he, he', hR a t a' t' hQ⟩

/-- Both programs go on as two others do. -/
theorem Both.congr {q : Proc Req Rep S α} {q' : Proc Req Rep S α'} {y y' : S × σ} (h : Both E q q' y y' Q)
    (hp : p.exec E z.1 z.2 = q.exec E y.1 y.2) (hp' : p'.exec E z'.1 z'.2 = q'.exec E y'.1 y'.2) :
    Both E p p' z z' Q := by
  unfold Both Faults at h ⊢
  rw [hp, hp']
  exact h

/-- What is known of the first program alone. -/
theorem Both.left (h : Both E p p' z z' Q) {P : S → Prop} {R : α → S → Prop} (ht : Triple E P p R) (hz : P z.1) :
    Both E p p' z z' (fun a t a' t' => Q a t a' t' ∧ R a t.1) := by
  rcases h with h | ⟨a, t, a', t', he, he', hQ⟩
  · exact Or.inl h
  · exact Or.inr ⟨a, t, a', t', he, he', hQ, ht z.1 z.2 a t.1 t.2 hz he⟩

theorem Both.bind (h : Both E p p' z z' Q) {f : α → Proc Req Rep S β} {f' : α' → Proc Req Rep S β'}
    {R : β → S × σ → β' → S × σ → Prop} (hf : ∀ a t a' t', Q a t a' t' → Both E (f a) (f' a') t t' R) :
    Both E (p >>= f) (p' >>= f') z z' R := by
  rcases h with ⟨h, h'⟩ | ⟨a, t, a', t', he, he', hQ⟩
  · exact Or.inl ⟨h.bind f, h'.bind f'⟩
  · rcases hf a t a' t' hQ with ⟨⟨e, y, h⟩, ⟨e', y', h'⟩⟩ | ⟨b, u, b', u', hb, hb', hR⟩
    · exact Or.inl ⟨⟨e, y, (exec_bind_ok E _ _ he).trans h⟩, ⟨e', y', (exec_bind_ok E _ _ he').trans h'⟩⟩
    · exact Or.inr ⟨b, u, b', u', (exec_bind_ok E _ _ he).trans hb, (exec_bind_ok E _ _ he').trans hb', hR⟩

theorem both_pure {a : α} {a' : α'} (hQ : Q a z a' z') :
    Both E (Pure.pure a : Proc Req Rep S α) (Pure.pure a' : Proc Req Rep S α') z z' Q :=
  both_ok rfl rfl hQ

theorem both_modify {f f' : S → S} {Q : Unit → S × σ → Unit → S × σ → Prop}
    (hQ : Q () (f z.1, z.2) () (f' z'.1, z'.2)) :
    Both E (modify f : Proc Req Rep S Unit) (modify f' : Proc Req Rep S Unit) z z' Q :=
  both_ok rfl rfl hQ

/-- Both programs compute the same. -/
theorem both_lift {e : Except Fault α} {Q : α → S × σ → α → S × σ → Prop}
    (hQ : ∀ a, e = .ok a → Q a z a z') : Both E (lift e : Proc Req Rep S α) (lift e : Proc Req Rep S α) z z' Q := by
  cases e with
  | error err => exact both_faults ⟨err, z.2, rfl⟩ ⟨err, z'.2, rfl⟩
  | ok a => exact both_ok rfl rfl (hQ a rfl)

theorem Both.each {f f' : α → Proc Req Rep S Unit} {R : S × σ → S × σ → Prop} {as : List α}
    (h : ∀ a ∈ as, ∀ t t', R t t' → Both E (f a) (f' a) t t' (fun _ t _ t' => R t t')) (hz : R z z') :
    Both E (Proc.each f as) (Proc.each f' as) z z' (fun _ t _ t' => R t t') := by
  induction as generalizing z z' with
  | nil => exact both_pure hz
  | cons a as ih =>
    refine (h a (by simp) z z' hz).bind (fun _ t _ t' ht => ?_)
    exact ih (fun b hb => h b (by simp [hb])) ht

end Rules

end OptLrc.Process.Proc
