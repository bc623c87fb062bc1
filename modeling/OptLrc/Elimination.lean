import OptLrc.Independence
import Mathlib.LinearAlgebra.Matrix.ToLinearEquiv

namespace OptLrc.Elimination

open OptLrc.Independence

variable {F : Type} [Field F] {n : Nat} {M mat inv mat' inv' : Nat → Nat → F}

/-- The rows `mat` come from the rows `M` by row operations, and `inv` records these. -/
structure Reduces (n : Nat) (M mat inv : Nat → Nat → F) : Prop where
  combines : ∀ s < n, ∀ c, dot n (mat s) c = dot n (inv s) fun t => dot n (M t) c
  kernel : ∀ c, (∀ s < n, dot n (mat s) c = 0) → ∀ s < n, dot n (M s) c = 0

theorem dot_add (p q : F) (row row' c : Nat → F) :
    dot n (fun b => p * row b + q * row' b) c = p * dot n row c + q * dot n row' c := by
  simp only [dot, Finset.mul_sum, ← Finset.sum_add_distrib]
  apply Finset.sum_congr rfl
  intro i _
  ring

theorem Reduces.refl (h : ∀ s < n, ∀ b < n, inv s b = unitRow s b) : Reduces n M M inv where
  combines := fun s hs c => by rw [dot_congr (h s hs), dot_unitRow hs]
  kernel := fun _ h => h

/-- One operation on all rows at once: each new row combines two old rows, and the old rows
vanish where the new ones do. -/
theorem Reduces.step (h : Reduces n M mat inv) {p q : Nat → F} {f g : Nat → Nat}
    (hf : ∀ s < n, f s < n) (hg : ∀ s < n, g s < n)
    (hmat : ∀ s < n, ∀ b < n, mat' s b = p s * mat (f s) b + q s * mat (g s) b)
    (hinv : ∀ s < n, ∀ b < n, inv' s b = p s * inv (f s) b + q s * inv (g s) b)
    (hback : ∀ v : Nat → F, (∀ s < n, p s * v (f s) + q s * v (g s) = 0) → ∀ s < n, v s = 0) :
    Reduces n M mat' inv' where
  combines := fun s hs c => by
    rw [dot_congr (hmat s hs), dot_congr (hinv s hs), dot_add, dot_add,
      h.combines (f s) (hf s hs), h.combines (g s) (hg s hs)]
  kernel := fun c hc => by
    apply h.kernel c
    apply hback
    intro s hs
    rw [← dot_add, ← dot_congr (hmat s hs), hc s hs]

theorem Reduces.swap (h : Reduces n M mat inv) {i j : Nat} (hi : i < n) (hj : j < n)
    (hmat : ∀ s < n, ∀ b < n, mat' s b = mat (Equiv.swap i j s) b)
    (hinv : ∀ s < n, ∀ b < n, inv' s b = inv (Equiv.swap i j s) b) : Reduces n M mat' inv' := by
  have hlt : ∀ s < n, Equiv.swap i j s < n := fun s hs => swap_lt hi hj hs
  apply h.step (p := fun _ => 1) (q := fun _ => 0) hlt hlt
  · intro s hs b hb
    rw [hmat s hs b hb]
    ring
  · intro s hs b hb
    rw [hinv s hs b hb]
    ring
  · intro v hv s hs
    simpa using hv (Equiv.swap i j s) (hlt s hs)

theorem Reduces.scale (h : Reduces n M mat inv) (i : Nat) {x : F} (hx : x ≠ 0)
    (hmat : ∀ s < n, ∀ b < n, mat' s b = (if s = i then x else 1) * mat s b)
    (hinv : ∀ s < n, ∀ b < n, inv' s b = (if s = i then x else 1) * inv s b) :
    Reduces n M mat' inv' := by
  apply h.step (p := fun s => if s = i then x else 1) (q := fun _ => 0) (f := id) (g := id)
    (fun _ hs => hs) (fun _ hs => hs)
  · intro s hs b hb
    rw [hmat s hs b hb]
    simp
  · intro s hs b hb
    rw [hinv s hs b hb]
    simp
  · intro v hv s hs
    have := hv s hs
    by_cases hsi : s = i <;> simpa [hsi, hx] using this

theorem Reduces.add (h : Reduces n M mat inv) {i j : Nat} (hij : i ≠ j) (hi : i < n) (x : F)
    (hmat : ∀ s < n, ∀ b < n, mat' s b = mat s b + (if s = j then x else 0) * mat i b)
    (hinv : ∀ s < n, ∀ b < n, inv' s b = inv s b + (if s = j then x else 0) * inv i b) :
    Reduces n M mat' inv' := by
  apply h.step (p := fun _ => 1) (q := fun s => if s = j then x else 0) (f := id) (g := fun _ => i)
    (fun _ hs => hs) (fun _ _ => hi)
  · intro s hs b hb
    rw [hmat s hs b hb, one_mul, id]
  · intro s hs b hb
    rw [hinv s hs b hb, one_mul, id]
  · intro v hv s hs
    have hvi : v i = 0 := by simpa [hij] using hv i hi
    simpa [hvi] using hv s hs

/-- Rows reduced to those of the identity have been inverted. -/
theorem Reduces.inverts (h : Reduces n M mat inv)
    (hunit : ∀ s < n, ∀ b < n, mat s b = unitRow s b) {s : Nat} (hs : s < n) (c : Nat → F) :
    dot n (inv s) (fun t => dot n (M t) c) = c s := by
  rw [← h.combines s hs, dot_congr (hunit s hs), dot_unitRow hs]

/-- When a column below the triangle is zero, some vector that is not zero is orthogonal to
all rows. -/
theorem Reduces.exists_kernel (h : Reduces n M mat inv) {i : Nat} (hi : i < n)
    (hlow : ∀ b < i, ∀ s < n, i ≤ s → mat s b = 0) (hcol : ∀ s < n, i ≤ s → mat s i = 0) :
    ∃ c : Nat → F, (∃ s < n, c s ≠ 0) ∧ ∀ s < n, dot n (M s) c = 0 := by
  let corner : Matrix (Fin (i + 1)) (Fin (i + 1)) F := Matrix.of fun s b => mat s b
  have hzero : ∀ s < n, i ≤ s → ∀ b < i + 1, mat s b = 0 := by
    intro s hs hsi b hb
    rcases Nat.lt_or_ge b i with hlt | hge
    · exact hlow b hlt s hs hsi
    · rw [show b = i by omega, hcol s hs hsi]
  have hdet : corner.det = 0 := by
    apply Matrix.det_eq_zero_of_row_eq_zero (Fin.last i)
    intro b
    exact hzero i hi le_rfl b b.2
  obtain ⟨v, hne, hv⟩ := Matrix.exists_mulVec_eq_zero_iff.mpr hdet
  obtain ⟨t, ht⟩ := Function.ne_iff.mp hne
  let c (b : Nat) : F := if h : b < i + 1 then v ⟨b, h⟩ else 0
  have hc : ∀ b : Fin (i + 1), c b = v b := fun b => dif_pos b.2
  refine ⟨c, ⟨t, by omega, by rw [hc]; exact ht⟩, h.kernel c (fun s hs => ?_)⟩
  have hcut : dot n (mat s) c = dot (i + 1) (mat s) c := by
    apply (Finset.sum_subset (Finset.range_mono (by omega)) (fun b _ hb => ?_)).symm
    rw [show c b = 0 from dif_neg (fun h => hb (Finset.mem_range.mpr h)), mul_zero]
  rw [hcut]
  by_cases hsi : s < i
  · have := congrFun hv ⟨s, by omega⟩
    rw [dot, ← Fin.sum_univ_eq_sum_range (fun b => mat s b * c b)]
    simpa only [hc, Matrix.mulVec, dotProduct, corner, Matrix.of_apply, Pi.zero_apply] using this
  · apply Finset.sum_eq_zero
    intro b hb
    rw [hzero s hs (by omega) b (Finset.mem_range.mp hb), zero_mul]

end OptLrc.Elimination
