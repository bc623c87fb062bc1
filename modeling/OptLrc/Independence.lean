import Mathlib.Algebra.BigOperators.Intervals
import Mathlib.LinearAlgebra.Lagrange
import Mathlib.Logic.Equiv.Basic

namespace OptLrc.Independence

open Polynomial

variable {F : Type} [Field F] {A B : Nat → Nat → F} {rows cols : Nat}

def dot (cols : Nat) (row c : Nat → F) : F := ∑ i ∈ Finset.range cols, row i * c i

def unitRow (s i : Nat) : F := if i = s then 1 else 0

/-- Any `cols` of the rows are independent: no vector but zero is orthogonal to all of them. -/
def AnyRows (A : Nat → Nat → F) (rows cols : Nat) : Prop :=
  ∀ known ⊆ Finset.range rows, known.card = cols → ∀ c : Nat → F,
    (∀ s ∈ known, dot cols (A s) c = 0) → ∀ i < cols, c i = 0

theorem dot_congr {row row' : Nat → F} (h : ∀ i < cols, row i = row' i) (c : Nat → F) :
    dot cols row c = dot cols row' c := by
  apply Finset.sum_congr rfl
  intro i hi
  rw [h i (Finset.mem_range.mp hi)]

theorem dot_unitRow {s : Nat} (hs : s < cols) (c : Nat → F) : dot cols (unitRow s) c = c s := by
  simp [dot, unitRow, hs]

theorem dot_unit_right {s : Nat} (hs : s < cols) (row : Nat → F) :
    dot cols row (unitRow s) = row s := by
  simp [dot, unitRow, hs]

theorem dot_smul (x : F) (row c : Nat → F) :
    dot cols (fun i => x * row i) c = x * dot cols row c := by
  simp only [dot, Finset.mul_sum, mul_assoc]

/-- The vectors that are orthogonal to the new rows come from those orthogonal to the old. -/
theorem AnyRows.transform (hA : AnyRows A rows cols) (T : (Nat → F) → Nat → F)
    (hdot : ∀ s < rows, ∀ c, dot cols (A s) (T c) = 0 ↔ dot cols (B s) c = 0)
    (hT : ∀ c, (∀ i < cols, T c i = 0) → ∀ i < cols, c i = 0) : AnyRows B rows cols := by
  intro known hsub hcard c hc
  apply hT c
  apply hA known hsub hcard
  intro s hs
  exact (hdot s (Finset.mem_range.mp (hsub hs)) c).mpr (hc s hs)

theorem AnyRows.congr (hA : AnyRows A rows cols) (h : ∀ s < rows, ∀ i < cols, B s i = A s i) :
    AnyRows B rows cols :=
  hA.transform id (fun s hs c => by rw [dot_congr (h s hs)]; rfl) (fun _ h => h)

theorem AnyRows.scaleRows (hA : AnyRows A rows cols) {x : Nat → F} (hx : ∀ s < rows, x s ≠ 0) :
    AnyRows (fun s i => x s * A s i) rows cols := by
  apply hA.transform id
  · intro s hs c
    rw [dot_smul, mul_eq_zero]
    exact ⟨Or.inr, fun h => h.resolve_left (hx s hs)⟩
  · exact fun _ h => h

theorem AnyRows.permute (hA : AnyRows A rows cols) (σ : Equiv.Perm Nat)
    (hσ : ∀ s < rows, σ s < rows) : AnyRows (fun s => A (σ s)) rows cols := by
  intro known hsub hcard c hc
  apply hA (known.map σ.toEmbedding)
  · intro t ht
    obtain ⟨s, hs, rfl⟩ := Finset.mem_map.mp ht
    exact Finset.mem_range.mpr (hσ s (Finset.mem_range.mp (hsub hs)))
  · rw [Finset.card_map, hcard]
  · intro t ht
    obtain ⟨s, hs, rfl⟩ := Finset.mem_map.mp ht
    exact hc s hs

theorem swap_lt {i j s : Nat} (hi : i < rows) (hj : j < rows) (hs : s < rows) :
    Equiv.swap i j s < rows := by
  by_cases h1 : s = i
  · rwa [h1, Equiv.swap_apply_left]
  · by_cases h2 : s = j
    · rwa [h2, Equiv.swap_apply_right]
    · rwa [Equiv.swap_apply_of_ne_of_ne h1 h2]

theorem AnyRows.scaleColumn (hA : AnyRows A rows cols) (j : Nat) {x : F} (hx : x ≠ 0) :
    AnyRows (fun s i => if i = j then x * A s i else A s i) rows cols := by
  apply hA.transform (fun c i => if i = j then x * c i else c i)
  · intro s _ c
    have h : dot cols (A s) (fun i => if i = j then x * c i else c i) =
        dot cols (fun i => if i = j then x * A s i else A s i) c := by
      apply Finset.sum_congr rfl
      intro i _
      by_cases hi : i = j
      · simp only [hi, if_true]
        ring
      · simp only [hi, if_false]
    rw [h]
  · intro c h i hi
    have := h i hi
    split at this
    · exact (mul_eq_zero.mp this).resolve_left hx
    · exact this

/-- Column `j` gains a multiple of column `i`. -/
theorem AnyRows.addColumn (hA : AnyRows A rows cols) {i j : Nat} (hij : j ≠ i) (hi : i < cols)
    (hj : j < cols) (x : F) :
    AnyRows (fun s b => if b = j then A s b + x * A s i else A s b) rows cols := by
  apply hA.transform (fun c b => if b = i then c i + x * c j else c b)
  · intro s _ c
    have hl : dot cols (A s) (fun b => if b = i then c i + x * c j else c b) =
        dot cols (A s) c + x * A s i * c j := by
      have h : ∀ b, A s b * (if b = i then c i + x * c j else c b) =
          A s b * c b + if b = i then x * A s i * c j else 0 := by
        intro b
        by_cases hb : b = i
        · rw [hb, if_pos rfl, if_pos rfl]
          ring
        · simp [hb]
      simp only [dot, h, Finset.sum_add_distrib, Finset.sum_ite_eq', Finset.mem_range, hi, if_true]
    have hr : dot cols (fun b => if b = j then A s b + x * A s i else A s b) c =
        dot cols (A s) c + x * A s i * c j := by
      have h : ∀ b, (if b = j then A s b + x * A s i else A s b) * c b =
          A s b * c b + if b = j then x * A s i * c j else 0 := by
        intro b
        by_cases hb : b = j
        · rw [hb, if_pos rfl, if_pos rfl]
          ring
        · simp [hb]
      simp only [dot, h, Finset.sum_add_distrib, Finset.sum_ite_eq', Finset.mem_range, hj, if_true]
    rw [hl, hr]
  · intro c h
    have hcj : c j = 0 := by simpa [hij] using h j hj
    intro b hb
    have := h b hb
    by_cases hbi : b = i
    · simpa [hbi, hcj] using this
    · simpa [hbi] using this

/-- A row below the unit rows has an entry in the next column. -/
theorem AnyRows.exists_pivot (hA : AnyRows A rows cols) (hle : cols ≤ rows) {i : Nat}
    (hi : i < cols) (hunit : ∀ s < i, ∀ b < cols, A s b = unitRow s b) :
    ∃ j, i ≤ j ∧ j < rows ∧ A j i ≠ 0 := by
  by_contra hnone
  push Not at hnone
  have h := hA (Finset.range cols) (Finset.range_mono hle) (Finset.card_range cols) (unitRow i) ?_ i hi
  · simp [unitRow] at h
  · intro s hs
    rw [dot_unit_right hi]
    by_cases hsi : s < i
    · rw [hunit s hsi i hi, unitRow, if_neg (by omega)]
    · have := Finset.mem_range.mp hs
      exact hnone s (by omega) (by omega)

/-- Below the identity no entry is zero. -/
theorem AnyRows.entry_ne_zero (hA : AnyRows A rows cols)
    (hunit : ∀ s < cols, ∀ b < cols, A s b = unitRow s b) {s j : Nat} (hs : cols ≤ s)
    (hlt : s < rows) (hj : j < cols) : A s j ≠ 0 := by
  intro hzero
  have hnot : s ∉ (Finset.range cols).erase j :=
    fun h => absurd (Finset.mem_range.mp (Finset.mem_of_mem_erase h)) (by omega)
  have h := hA (insert s ((Finset.range cols).erase j)) ?_ ?_ (unitRow j) ?_ j hj
  · simp [unitRow] at h
  · apply Finset.insert_subset (Finset.mem_range.mpr hlt)
    exact (Finset.erase_subset _ _).trans (Finset.range_mono (by omega))
  · rw [Finset.card_insert_of_notMem hnot, Finset.card_erase_of_mem (Finset.mem_range.mpr hj),
      Finset.card_range]
    omega
  · intro t ht
    rw [dot_unit_right hj]
    rcases Finset.mem_insert.mp ht with rfl | ht
    · exact hzero
    · obtain ⟨htj, ht⟩ := Finset.mem_erase.mp ht
      rw [hunit t (Finset.mem_range.mp ht) j hj, unitRow, if_neg (Ne.symm htj)]

section Points

/-- Row `s` evaluates a polynomial with the given coefficients at `point s`, and the last
row takes its leading coefficient. -/
def pointRow (point : Nat → F) (rows cols s i : Nat) : F :=
  if s = rows - 1 then unitRow (cols - 1) i else point s ^ i

noncomputable def polynomial (cols : Nat) (c : Nat → F) : F[X] :=
  ∑ i ∈ Finset.range cols, C (c i) * X ^ i

theorem coeff_polynomial (c : Nat → F) (i : Nat) :
    (polynomial cols c).coeff i = if i < cols then c i else 0 := by
  simp [polynomial, coeff_C_mul, coeff_X_pow]

theorem eval_polynomial (c : Nat → F) (x : F) :
    (polynomial cols c).eval x = dot cols (fun i => x ^ i) c := by
  rw [polynomial, eval_finsetSum]
  apply Finset.sum_congr rfl
  intro i _
  rw [eval_mul, eval_C, eval_pow, eval_X, mul_comm]

theorem degree_polynomial_lt {c : Nat → F} {d : Nat} (h : ∀ i, d ≤ i → i < cols → c i = 0) :
    (polynomial cols c).degree < d := by
  rw [degree_lt_iff_coeff_zero]
  intro i hi
  rw [coeff_polynomial]
  split
  · next hlt => exact h i hi hlt
  · rfl

theorem anyRows_pointRow {point : Nat → F} (hcols : 0 < cols)
    (hp : Set.InjOn point (Finset.range (rows - 1))) :
    AnyRows (pointRow point rows cols) rows cols := by
  intro known hsub hcard c hc
  have heval : ∀ s ∈ known, s ≠ rows - 1 → (polynomial cols c).eval (point s) = 0 := by
    intro s hs hne
    rw [eval_polynomial, ← hc s hs]
    apply dot_congr
    intro i _
    rw [pointRow, if_neg hne]
  have hpts : ∀ known' ⊆ known, rows - 1 ∉ known' → Set.InjOn point known' := by
    intro known' hk hnot
    apply hp.mono
    intro s hs
    have h1 := Finset.mem_range.mp (hsub (hk hs))
    have h2 : s ≠ rows - 1 := fun h => hnot (h ▸ hs)
    exact Finset.mem_coe.mpr (Finset.mem_range.mpr (by omega))
  have hzero : polynomial cols c = 0 := by
    by_cases hlast : rows - 1 ∈ known
    · -- The leading coefficient is zero, and so are the values at the other points.
      have hlead : c (cols - 1) = 0 := by
        have := hc _ hlast
        rwa [dot_congr (fun i _ => by rw [pointRow, if_pos rfl]), dot_unitRow (by omega)] at this
      apply eq_zero_of_degree_lt_of_eval_index_eq_zero (known.erase (rows - 1))
        (hpts _ (Finset.erase_subset _ _) (Finset.notMem_erase _ _))
      · rw [Finset.card_erase_of_mem hlast, hcard]
        apply degree_polynomial_lt
        intro i h1 h2
        rwa [show i = cols - 1 by omega]
      · intro s hs
        obtain ⟨hne, hs⟩ := Finset.mem_erase.mp hs
        exact heval s hs hne
    · apply eq_zero_of_degree_lt_of_eval_index_eq_zero known (hpts _ (Finset.Subset.refl _) hlast)
      · rw [hcard]
        apply degree_polynomial_lt
        intro i h1 h2
        omega
      · intro s hs
        exact heval s hs (fun h => hlast (h ▸ hs))
  intro i hi
  have hcoeff : (polynomial cols c).coeff i = c i := by
    rw [coeff_polynomial, if_pos hi]
  rw [← hcoeff, hzero, coeff_zero]

end Points

end OptLrc.Independence
