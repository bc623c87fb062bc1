import OptLrc.Bound
import Mathlib.LinearAlgebra.Lagrange

namespace OptLrc.Codes

open Polynomial
open OptLrc.Distance OptLrc.Bound

section Codes

variable {F : Type} [Field F] {A : Nat → Nat → F} {k m : Nat}

/-- Any `k` of the data and coding symbols determine the `k` data symbols. -/
def Mds (A : Nat → Nat → F) (k m : Nat) : Prop :=
  ∀ known ⊆ Finset.range (k + m), known.card = k → ∀ c : Nat → F,
    (∀ s ∈ known, symbol A k c s = 0) → ∀ s < k, c s = 0

def OnesFirst (A : Nat → Nat → F) (k m : Nat) : Prop := 0 < m → ∀ i < k, A 0 i = 1

theorem symbol_data (A : Nat → Nat → F) (c : Nat → F) {s : Nat} (hs : s < k) :
    symbol A k c s = c s := if_pos hs

theorem mds_zero (A : Nat → Nat → F) (k : Nat) : Mds A k 0 := by
  intro known hsub hk c hc s hs
  have hall : known = Finset.range k :=
    Finset.eq_of_subset_of_card_le hsub (by rw [hk, Finset.card_range])
  have := hc s (hall ▸ Finset.mem_range.mpr hs)
  rwa [symbol_data A c hs] at this

/-- A word that is not zero has more than `m` symbols that are not zero. -/
theorem Mds.lt_card (hA : Mds A k m) {c : Nat → F} {s : Nat} (hs : s < k) (hc : c s ≠ 0)
    {N : Finset Nat} (hN : ∀ s < k + m, symbol A k c s ≠ 0 → s ∈ N) : m < N.card := by
  by_contra hle
  have hcard : k ≤ (Finset.range (k + m) \ N).card := by
    have := Finset.le_card_sdiff N (Finset.range (k + m))
    rw [Finset.card_range] at this
    omega
  obtain ⟨known, hsub, hk⟩ := Finset.exists_subset_card_eq hcard
  apply hc
  apply hA known (fun t ht => (Finset.mem_sdiff.mp (hsub ht)).1) hk c _ s hs
  intro t ht
  obtain ⟨hlt, hnot⟩ := Finset.mem_sdiff.mp (hsub ht)
  by_contra hne
  exact hnot (hN t (Finset.mem_range.mp hlt) hne)

/-- Every set of `m + 1` symbols is where some word is not zero. -/
theorem Mds.exists_word (hA : Mds A k m) {N : Finset Nat} (hN : N ⊆ Finset.range (k + m))
    (hcard : N.card = m + 1) : ∃ c : Nat → F, ∀ s < k + m, symbol A k c s ≠ 0 ↔ s ∈ N := by
  have hle : m + 1 ≤ k + m := by
    have := Finset.card_le_card hN
    rwa [hcard, Finset.card_range] at this
  have hZ : (Finset.range (k + m) \ N).card = k - 1 := by
    rw [Finset.card_sdiff_of_subset hN, Finset.card_range]
    omega
  let z := (Finset.range (k + m) \ N).orderEmbOfFin hZ
  obtain ⟨c, ⟨t, ht, hne⟩, hc⟩ := exists_ne_zero k (k - 1) (by omega)
    (fun j => if h : j < k - 1 then coefficient A k (z ⟨j, h⟩) else 0)
  have hzero : ∀ s ∈ Finset.range (k + m) \ N, symbol A k c s = 0 := by
    intro s hs
    obtain ⟨j, rfl⟩ : ∃ j, z j = s := by
      have := Finset.range_orderEmbOfFin (Finset.range (k + m) \ N) hZ
      exact (Set.ext_iff.mp this s).mpr hs
    have := hc j j.2
    rw [dif_pos j.2] at this
    rwa [symbol_eq_sum]
  refine ⟨c, fun s hs => ⟨fun h => ?_, fun hmem hs0 => ?_⟩⟩
  · by_contra hnot
    exact h (hzero s (Finset.mem_sdiff.mpr ⟨Finset.mem_range.mpr hs, hnot⟩))
  · have hnot : s ∉ Finset.range (k + m) \ N := fun h => (Finset.mem_sdiff.mp h).2 hmem
    refine hne (hA (insert s (Finset.range (k + m) \ N)) ?_ ?_ c ?_ t ht)
    · exact Finset.insert_subset (Finset.mem_range.mpr hs) Finset.sdiff_subset
    · rw [Finset.card_insert_of_notMem hnot, hZ]
      omega
    · intro p hp
      rcases Finset.mem_insert.mp hp with rfl | hp
      · exact hs0
      · exact hzero p hp

/-- The coding rows, each scaleRows by a factor of its own. -/
def scaleRows (A : Nat → Nat → F) (factor : Nat → F) (j i : Nat) : F := factor j * A j i

theorem symbol_scaleRows (factor c : Nat → F) (s : Nat) :
    symbol (scaleRows A factor) k c s =
      if s < k then c s else factor (s - k) * symbol A k c s := by
  unfold symbol scaleRows
  split
  · rfl
  · simp only [Finset.mul_sum, mul_assoc]

theorem Mds.scale (hA : Mds A k m) {factor : Nat → F} (hf : ∀ j < m, factor j ≠ 0) :
    Mds (scaleRows A factor) k m := by
  intro known hsub hk c hc
  refine hA known hsub hk c (fun s hs => ?_)
  have h := hc s hs
  rw [symbol_scaleRows] at h
  split at h
  · next hlt => rwa [symbol_data A c hlt]
  · have := Finset.mem_range.mp (hsub hs)
    exact (mul_eq_zero.mp h).resolve_left (hf _ (by omega))

/-- The coding symbols of one word can be given any values that vanish where they do. -/
theorem Mds.exists_scaled (hA : Mds A k m) (hone : OnesFirst A k m) (c v : Nat → F)
    (hv : ∀ s < k + m, k < s → (v s = 0 ↔ symbol A k c s = 0)) :
    ∃ B : Nat → Nat → F, Mds B k m ∧ OnesFirst B k m ∧
      (∀ s ≤ k, s < k + m → symbol B k c s = symbol A k c s) ∧
      ∀ s < k + m, k < s → symbol B k c s = v s := by
  classical
  let factor (j : Nat) : F :=
    if j = 0 ∨ symbol A k c (k + j) = 0 then 1 else v (k + j) / symbol A k c (k + j)
  refine ⟨scaleRows A factor, hA.scale (fun j hj => ?_), fun hm i hi => ?_, fun s hs _ => ?_,
    fun s hs hlt => ?_⟩
  · by_cases h : j = 0 ∨ symbol A k c (k + j) = 0
    · simp [factor, h]
    · simp only [factor, h, if_false]
      push Not at h
      exact div_ne_zero (fun h0 => h.2 ((hv (k + j) (by omega) (by omega)).mp h0)) h.2
  · simp [scaleRows, factor, hone hm i hi]
  · rw [symbol_scaleRows]
    split
    · next h => rw [symbol_data A c h]
    · rw [show s - k = 0 by omega]
      simp [factor]
  · rw [symbol_scaleRows, if_neg (by omega)]
    by_cases h : symbol A k c s = 0
    · rw [h, mul_zero, (hv s hs hlt).mpr h]
    · have hs' : k + (s - k) = s := by omega
      simp only [factor, hs', h, or_false, show s - k ≠ 0 by omega, if_false]
      exact div_mul_cancel₀ _ h

end Codes

section Sums

variable {F : Type} [Field F]

/-- Symbols that are not zero can have any sum, except that one of them alone is not zero. -/
theorem exists_sum (hF : ∀ x : F, ∃ y, y ≠ 0 ∧ y ≠ x) (J : Finset Nat) (x : F)
    (hJ : 1 < J.card ∨ J.Nonempty ∧ x ≠ 0) :
    ∃ v : Nat → F, (∀ s ∈ J, v s ≠ 0) ∧ ∑ s ∈ J, v s = x := by
  induction J using Finset.induction_on generalizing x with
  | empty => simp at hJ
  | insert t J ht ih =>
    rcases J.eq_empty_or_nonempty with rfl | hne
    · exact ⟨fun _ => x, by simpa using hJ, by simp⟩
    · -- The new symbol leaves a sum that is not zero to the others.
      obtain ⟨y, hy0, hyx⟩ := hF x
      obtain ⟨v, hv, hs⟩ := ih (x - y) (Or.inr ⟨hne, sub_ne_zero.mpr hyx.symm⟩)
      have hupd : ∀ s ∈ J, Function.update v t y s = v s := by
        intro s hs
        apply Function.update_of_ne
        rintro rfl
        exact ht hs
      refine ⟨Function.update v t y, fun s hs => ?_, ?_⟩
      · rcases Finset.mem_insert.mp hs with rfl | hs
        · rwa [Function.update_self]
        · rw [hupd s hs]
          exact hv s hs
      · rw [Finset.sum_insert ht, Function.update_self, Finset.sum_congr rfl hupd, hs,
          add_sub_cancel]

end Sums

section Points

variable {F : Type} [Field F] {k m : Nat}

/-- The systematic code that evaluates a polynomial of degree below `k` at the points, with
the data scaleRows so that the first coding row is all ones. -/
noncomputable def pointMatrix (point : Nat → F) (k j i : Nat) : F :=
  (Lagrange.basis (Finset.range k) point i).eval (point (k + j)) /
    (Lagrange.basis (Finset.range k) point i).eval (point k)

theorem eval_basis_ne_zero {point : Nat → F} (hp : Set.InjOn point (Finset.range (k + m)))
    {i s : Nat} (hi : i < k) (hs : k ≤ s) (hlt : s < k + m) :
    (Lagrange.basis (Finset.range k) point i).eval (point s) ≠ 0 := by
  have hne : ∀ j < k, point s ≠ point j := by
    intro j hj he
    have := hp (Finset.mem_coe.mpr (Finset.mem_range.mpr hlt))
      (Finset.mem_coe.mpr (Finset.mem_range.mpr (show j < k + m by omega))) he
    omega
  rw [Lagrange.basis, eval_prod, Finset.prod_ne_zero_iff]
  intro j hj
  obtain ⟨hji, hj⟩ := Finset.mem_erase.mp hj
  have hij : point i ≠ point j := by
    intro he
    exact hji (hp (Finset.mem_coe.mpr (Finset.mem_range.mpr (show j < k + m by
      have := Finset.mem_range.mp hj
      omega))) (Finset.mem_coe.mpr (Finset.mem_range.mpr (by omega))) he.symm)
  simp only [Lagrange.basisDivisor, eval_mul, eval_C, eval_sub, eval_X]
  exact mul_ne_zero (inv_ne_zero (sub_ne_zero.mpr hij))
    (sub_ne_zero.mpr (hne j (Finset.mem_range.mp hj)))

theorem pointMatrix_ones {point : Nat → F} (hp : Set.InjOn point (Finset.range (k + m))) :
    OnesFirst (pointMatrix point k) k m :=
  fun hm _ hi => div_self (eval_basis_ne_zero (m := m) hp hi le_rfl (by omega))

/-- The symbol of the polynomial that takes the scaled data at the first `k` points. -/
theorem symbol_pointMatrix {point : Nat → F} (c : Nat → F) {s : Nat} (hs : k ≤ s) :
    symbol (pointMatrix point k) k c s = (Lagrange.interpolate (Finset.range k) point
      (fun i => c i / (Lagrange.basis (Finset.range k) point i).eval (point k))).eval (point s) := by
  rw [symbol, if_neg (by omega), Lagrange.interpolate_apply, eval_finsetSum]
  apply Finset.sum_congr rfl
  intro i _
  rw [pointMatrix, Nat.add_sub_cancel' hs, eval_mul, eval_C]
  ring

theorem mds_pointMatrix {point : Nat → F} (hm : 0 < m)
    (hp : Set.InjOn point (Finset.range (k + m))) : Mds (pointMatrix point k) k m := by
  intro known hsub hk c hc
  have hpk : Set.InjOn point (Finset.range k) :=
    hp.mono (Finset.coe_subset.mpr (Finset.range_mono (by omega)))
  have hb : ∀ i < k, (Lagrange.basis (Finset.range k) point i).eval (point k) ≠ 0 :=
    fun i hi => eval_basis_ne_zero hp hi le_rfl (by omega)
  have heval : ∀ s < k, (Lagrange.interpolate (Finset.range k) point
      (fun i => c i / (Lagrange.basis (Finset.range k) point i).eval (point k))).eval (point s) =
        c s / (Lagrange.basis (Finset.range k) point s).eval (point k) :=
    fun s hs => Lagrange.eval_interpolate_at_node _ hpk (Finset.mem_range.mpr hs)
  have hzero : Lagrange.interpolate (Finset.range k) point
      (fun i => c i / (Lagrange.basis (Finset.range k) point i).eval (point k)) = 0 := by
    apply eq_zero_of_degree_lt_of_eval_index_eq_zero known
      (hp.mono (Finset.coe_subset.mpr hsub))
    · rw [hk]
      simpa only [Finset.card_range] using Lagrange.degree_interpolate_lt
        (fun i => c i / (Lagrange.basis (Finset.range k) point i).eval (point k)) hpk
    · intro s hs
      have h := hc s hs
      rcases Nat.lt_or_ge s k with hlt | hge
      · rw [heval s hlt, ← symbol_data (pointMatrix point k) c hlt, h, zero_div]
      · rwa [← symbol_pointMatrix c hge]
  intro s hs
  have h := heval s hs
  rw [hzero, eval_zero] at h
  exact (div_eq_zero_iff.mp h.symm).resolve_right (hb s hs)

end Points

end OptLrc.Codes
