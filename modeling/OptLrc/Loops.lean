import Mathlib.Algebra.Order.Ring.Nat
import Mathlib.Data.List.Basic

namespace OptLrc.Loops

variable {σ ε : Type} (inv : Nat → σ → Prop)

/-- A counting loop keeps what each turn keeps, and no turn fails. -/
theorem foldlM_range' {f : σ → Nat → Except ε σ} (first count : Nat) {s : σ}
    (hstep : ∀ i, first ≤ i → i < first + count → ∀ s, inv i s →
      ∃ s', f s i = .ok s' ∧ inv (i + 1) s') (hs : inv first s) :
    ∃ s', (List.range' first count).foldlM f s = .ok s' ∧ inv (first + count) s' := by
  induction count with
  | zero => exact ⟨s, rfl, hs⟩
  | succ count ih =>
    obtain ⟨t, ht, hinv⟩ := ih (fun i h1 h2 => hstep i h1 (by omega))
    obtain ⟨u, hu, hinv'⟩ := hstep (first + count) (by omega) (by omega) t hinv
    refine ⟨u, ?_, hinv'⟩
    rw [List.range'_1_concat, List.foldlM_append, ht]
    exact (bind_pure _).trans hu

theorem foldlM_range {f : σ → Nat → Except ε σ} (count : Nat) {s : σ}
    (hstep : ∀ i < count, ∀ s, inv i s → ∃ s', f s i = .ok s' ∧ inv (i + 1) s')
    (hs : inv 0 s) : ∃ s', (List.range count).foldlM f s = .ok s' ∧ inv count s' := by
  rw [List.range_eq_range']
  have := foldlM_range' inv 0 count (fun i _ hi => hstep i (by omega)) hs
  rwa [Nat.zero_add] at this

theorem foldl_range {f : σ → Nat → σ} (count : Nat) {s : σ}
    (hstep : ∀ i < count, ∀ s, inv i s → inv (i + 1) (f s i)) (hs : inv 0 s) :
    inv count ((List.range count).foldl f s) := by
  induction count with
  | zero => exact hs
  | succ count ih =>
    rw [List.range_succ, List.foldl_append]
    exact hstep count (by omega) _ (ih (fun i hi => hstep i (by omega)))

theorem foldl_range' {f : σ → Nat → σ} (first count : Nat) {s : σ}
    (hstep : ∀ i, first ≤ i → i < first + count → ∀ s, inv i s → inv (i + 1) (f s i))
    (hs : inv first s) : inv (first + count) ((List.range' first count).foldl f s) := by
  induction count with
  | zero => exact hs
  | succ count ih =>
    rw [List.range'_1_concat, List.foldl_append]
    exact hstep (first + count) (by omega) (by omega) _ (ih (fun i h1 h2 => hstep i h1 (by omega)))

/-- A loop that counts down. -/
theorem foldr_range {f : Nat → σ → σ} (count : Nat) {s : σ}
    (hstep : ∀ i < count, ∀ s, inv (i + 1) s → inv i (f i s)) (hs : inv count s) :
    inv 0 ((List.range count).foldr f s) := by
  induction count generalizing s with
  | zero => exact hs
  | succ count ih =>
    rw [List.range_succ, List.foldr_append]
    exact ih (fun i hi => hstep i (by omega)) (hstep count (by omega) s hs)

/-- A loop that may stop early stops at some turn, with what held before that turn. -/
theorem foldlM_range_or {f : σ → Nat → Except ε σ} (count : Nat) {s : σ}
    (hs : inv 0 s) (hstep : ∀ i < count, ∀ s s', inv i s → f s i = .ok s' → inv (i + 1) s') :
    (∃ s', (List.range count).foldlM f s = .ok s' ∧ inv count s') ∨
      ∃ i < count, ∃ s' e, inv i s' ∧ f s' i = .error e ∧
        (List.range count).foldlM f s = .error e := by
  induction count with
  | zero => exact .inl ⟨s, rfl, hs⟩
  | succ count ih =>
    rcases ih (fun i hi => hstep i (by omega)) with ⟨t, ht, hinv⟩ | ⟨i, hi, t, e, hinv, he, hrun⟩
    · cases hu : f t count with
      | ok u =>
        refine .inl ⟨u, ?_, hstep count (by omega) t u hinv hu⟩
        rw [List.range_succ, List.foldlM_append, ht]
        exact (bind_pure _).trans hu
      | error e =>
        refine .inr ⟨count, by omega, t, e, hinv, hu, ?_⟩
        rw [List.range_succ, List.foldlM_append, ht]
        exact (bind_pure _).trans hu
    · refine .inr ⟨i, by omega, t, e, hinv, he, ?_⟩
      rw [List.range_succ, List.foldlM_append, hrun]
      rfl

theorem foldlM_congr {m : Type → Type} [Monad m] {f f' : σ → Nat → m σ} {l : List Nat}
    (h : ∀ i ∈ l, ∀ s, f s i = f' s i) (s : σ) : l.foldlM f s = l.foldlM f' s := by
  induction l generalizing s with
  | nil => rfl
  | cons i l ih =>
    rw [List.foldlM_cons, List.foldlM_cons, h i List.mem_cons_self]
    congr 1
    funext t
    exact ih (fun j hj => h j (List.mem_cons_of_mem i hj)) t

end OptLrc.Loops
