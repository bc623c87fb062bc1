import OptLrc.Elimination
import OptLrc.Vandermonde
import Mathlib.LinearAlgebra.Matrix.NonsingularInverse

namespace OptLrc.Inversion

open OptLrc.Galois OptLrc.Memory OptLrc.Independence OptLrc.Elimination OptLrc.Tables
  OptLrc.Vandermonde

/-- The matrix that is reduced and the one that becomes its inverse. -/
structure Pair (rows : Nat) where
  mat : ByteMatrix rows rows
  inv : ByteMatrix rows rows

variable {rows : Nat}

def pivotSwap (i : Nat) (p : Pair rows) : Except MatrixFault (Pair rows) :=
  if p.mat.get i i = 0 then
    match (List.range' (i + 1) (rows - (i + 1))).find? fun j => p.mat.get j i ≠ 0 with
    | none => .error .notInvertible
    | some j => .ok ⟨p.mat.swapRows i j, p.inv.swapRows i j⟩
  else .ok p

def pivotScale (i : Nat) (p : Pair rows) : Except MatrixFault (Pair rows) := do
  let tmp := p.mat.get i i
  if tmp ≠ 1 then
    let inverse ← divideOne tmp
    return ⟨p.mat.mapRow i fun _ x => galoisSingleMultiply x inverse,
      p.inv.mapRow i fun _ x => galoisSingleMultiply x inverse⟩
  else return p

def clearBelow (i : Nat) (p : Pair rows) (j : Nat) : Pair rows :=
  let tmp := p.mat.get j i
  if tmp ≠ 0 then
    if tmp = 1 then
      ⟨p.mat.mapRow j fun b x => x + p.mat.get i b, p.inv.mapRow j fun b x => x + p.inv.get i b⟩
    else
      ⟨p.mat.mapRow j fun b x => x + galoisSingleMultiply tmp (p.mat.get i b),
        p.inv.mapRow j fun b x => x + galoisSingleMultiply tmp (p.inv.get i b)⟩
  else p

/-- One turn of the loop that makes the matrix upper triangular. -/
def downTurn (p : Pair rows) (i : Nat) : Except MatrixFault (Pair rows) := do
  let p ← pivotSwap i p
  let p ← pivotScale i p
  return (List.range' (i + 1) (rows - (i + 1))).foldl (clearBelow i) p

def clearAbove (i : Nat) (p : Pair rows) (j : Nat) : Pair rows :=
  let tmp := p.mat.get j i
  if tmp ≠ 0 then
    ⟨p.mat.mapRow j fun b x => if b = i then 0 else x,
      p.inv.mapRow j fun b x => x + galoisSingleMultiply tmp (p.inv.get i b)⟩
  else p

def upTurn (i : Nat) (p : Pair rows) : Pair rows := (List.range i).foldl (clearAbove i) p

/-- `jerasure_invert_matrix(mat, inv, rows, 8)`: `notInvertible` is the return of -1. -/
def invertMatrix (mat : ByteMatrix rows rows) : Except MatrixFault (ByteMatrix rows rows) := do
  let identity : ByteMatrix rows rows := Table.ofFn rows rows fun i j => if i = j then 1 else 0
  let p ← (List.range rows).foldlM downTurn ⟨mat, identity⟩
  return ((List.range rows).foldr upTurn p).inv

/-- The matrix without what lies below the diagonal in its first `i` columns. -/
structure Down (M : ByteMatrix rows rows) (i : Nat) (p : Pair rows) : Prop where
  reduces : Reduces rows M.get p.mat.get p.inv.get
  low : ∀ b < i, ∀ s < rows, b ≤ s → p.mat.get s b = unitRow s b

/-- The entries below row `i` in column `i` are cleared down to row `j`. -/
structure Below (M : ByteMatrix rows rows) (i j : Nat) (p : Pair rows) : Prop extends Down M i p where
  pivot : p.mat.get i i = 1
  cleared : ∀ s < j, i < s → p.mat.get s i = 0

theorem Down.pivotSwap {M : ByteMatrix rows rows} {i : Nat} {p : Pair rows} (h : Down M i p)
    (hi : i < rows) :
    (∃ p', pivotSwap i p = .ok p' ∧ Down M i p' ∧ p'.mat.get i i ≠ 0) ∨
      pivotSwap i p = .error .notInvertible ∧ ∀ s < rows, i ≤ s → p.mat.get s i = 0 := by
  unfold Inversion.pivotSwap
  by_cases hpivot : p.mat.get i i = 0
  · rw [if_pos hpivot]
    cases hf : (List.range' (i + 1) (rows - (i + 1))).find? fun j => p.mat.get j i ≠ 0 with
    | none =>
      refine .inr ⟨rfl, fun s hs his => ?_⟩
      by_cases hsi : s = i
      · rwa [hsi]
      · have := List.find?_eq_none.mp hf s (by rw [List.mem_range'_1]; omega)
        simpa using this
    | some j =>
      have hmem := List.mem_of_find?_eq_some hf
      have hne := List.find?_some hf
      rw [List.mem_range'_1] at hmem
      refine .inl ⟨_, rfl, ⟨?_, fun b hb s hs hbs => ?_⟩, ?_⟩
      · exact h.reduces.swap hi (show j < rows by omega)
          (fun s hs b hb => p.mat.get_swapRows i j hs hb) (fun s hs b hb => p.inv.get_swapRows i j hs hb)
      · rw [p.mat.get_swapRows i j hs (by omega)]
        have hz : ∀ t < rows, i ≤ t → p.mat.get t b = 0 := fun t ht hit => by
          rw [h.low b hb t ht (by omega), unitRow, if_neg (by omega)]
        by_cases hsi : s = i
        · rw [hsi, Equiv.swap_apply_left, hz j (by omega) (by omega), unitRow, if_neg (by omega)]
        · by_cases hsj : s = j
          · rw [hsj, Equiv.swap_apply_right, hz i hi le_rfl, unitRow, if_neg (by omega)]
          · rw [Equiv.swap_apply_of_ne_of_ne hsi hsj]
            exact h.low b hb s hs hbs
      · rw [p.mat.get_swapRows i j hi hi, Equiv.swap_apply_left]
        simpa using hne
  · rw [if_neg hpivot]
    exact .inl ⟨p, rfl, h, hpivot⟩

theorem pivotScale_spec {i : Nat} {p : Pair rows} (hpivot : p.mat.get i i ≠ 0) :
    ∃ p', pivotScale i p = .ok p' ∧ ∀ s < rows, ∀ b < rows,
      p'.mat.get s b = (if s = i then (p.mat.get i i)⁻¹ else 1) * p.mat.get s b ∧
      p'.inv.get s b = (if s = i then (p.mat.get i i)⁻¹ else 1) * p.inv.get s b := by
  unfold pivotScale
  by_cases h1 : p.mat.get i i = 1
  · exact ⟨p, by simp [h1], fun s _ b _ => by simp [h1]⟩
  · simp only [h1, ne_eq, not_false_eq_true, if_true, divideOne_eq hpivot]
    refine ⟨_, rfl, fun s hs b hb => ?_⟩
    simp only [Table.get_mapRow, hs, hb]
    by_cases hsi : s = i <;> simp [hsi, galoisSingleMultiply_eq, mul_comm]

theorem Down.pivotScale {M : ByteMatrix rows rows} {i : Nat} {p : Pair rows} (h : Down M i p)
    (hi : i < rows) (hpivot : p.mat.get i i ≠ 0) :
    ∃ p', pivotScale i p = .ok p' ∧ Below M i (i + 1) p' := by
  obtain ⟨p', hp', hget⟩ := pivotScale_spec hpivot
  refine ⟨p', hp', ⟨?_, fun b hb s hs hbs => ?_⟩, ?_, fun s hs his => absurd hs (by omega)⟩
  · exact h.reduces.scale i (inv_ne_zero hpivot) (fun s hs b hb => (hget s hs b hb).1)
      (fun s hs b hb => (hget s hs b hb).2)
  · rw [(hget s hs b (by omega)).1, h.low b hb s hs hbs]
    by_cases hsi : s = i
    · rw [hsi, show unitRow (F := Byte) i b = 0 from if_neg (by omega), mul_zero]
    · rw [if_neg hsi, one_mul]
  · rw [(hget i hi i hi).1, if_pos rfl, inv_mul_cancel₀ hpivot]

theorem get_clearBelow (i : Nat) (p : Pair rows) (j : Nat) {s b : Nat} (hs : s < rows) (hb : b < rows) :
    (clearBelow i p j).mat.get s b =
        p.mat.get s b + (if s = j then p.mat.get j i else 0) * p.mat.get i b ∧
      (clearBelow i p j).inv.get s b =
        p.inv.get s b + (if s = j then p.mat.get j i else 0) * p.inv.get i b := by
  unfold clearBelow
  by_cases h0 : p.mat.get j i = 0
  · simp [h0]
  · by_cases hsj : s = j
    · subst s
      by_cases h1 : p.mat.get j i = 1 <;> simp [h0, h1, hs, hb, galoisSingleMultiply_eq]
    · by_cases h1 : p.mat.get j i = 1 <;> simp [h0, h1, hs, hb, hsj]

theorem Below.clearBelow {M : ByteMatrix rows rows} {i j : Nat} {p : Pair rows} (h : Below M i j p)
    (hij : i < j) (hj : j < rows) : Below M i (j + 1) (clearBelow i p j) := by
  have hget : ∀ s < rows, ∀ b < rows, _ := fun s hs b hb => get_clearBelow i p j hs hb
  refine ⟨⟨?_, fun b hb s hs hbs => ?_⟩, ?_, fun s hs his => ?_⟩
  · exact h.reduces.add (by omega) (by omega) (p.mat.get j i) (fun s hs b hb => (hget s hs b hb).1)
      (fun s hs b hb => (hget s hs b hb).2)
  · rw [(hget s hs b (by omega)).1, h.low b hb s hs hbs, h.low b hb i (by omega) (by omega),
      show unitRow (F := Byte) i b = 0 from if_neg (by omega), mul_zero, add_zero]
  · rw [(hget i (by omega) i (by omega)).1, if_neg (by omega), zero_mul, add_zero, h.pivot]
  · rw [(hget s (by omega) i (by omega)).1, h.pivot, mul_one]
    by_cases hsj : s = j
    · rw [if_pos hsj, hsj]
      exact add_self _
    · rw [if_neg hsj, add_zero]
      exact h.cleared s (by omega) his

/-- A turn reduces the next column, or finds it zero from the diagonal down. -/
theorem downTurn_spec {M : ByteMatrix rows rows} {i : Nat} {p : Pair rows} (h : Down M i p)
    (hi : i < rows) : (∃ p', downTurn p i = .ok p' ∧ Down M (i + 1) p') ∨
      downTurn p i = .error .notInvertible ∧ ∀ s < rows, i ≤ s → p.mat.get s i = 0 := by
  rcases h.pivotSwap hi with ⟨p₁, h1, hd, hpivot⟩ | ⟨herr, hzero⟩
  · obtain ⟨p₂, h2, hb⟩ := hd.pivotScale hi hpivot
    have hall := Loops.foldl_range' (Below M i) (i + 1) (rows - (i + 1))
      (fun j h h' p hp => hp.clearBelow (by omega) (by omega)) hb
    rw [show i + 1 + (rows - (i + 1)) = rows by omega] at hall
    refine .inl ⟨_, by simp only [downTurn, h1, h2, ok_bind, pure_eq_ok], hall.reduces,
      fun b hb s hs hbs => ?_⟩
    rcases Nat.lt_or_ge b i with hlt | hge
    · exact hall.low b hlt s hs hbs
    · obtain rfl : b = i := by omega
      by_cases hsb : s = b
      · rw [hsb, hall.pivot, unitRow, if_pos rfl]
      · rw [hall.cleared s hs (by omega), unitRow, if_neg (by omega)]
  · exact .inr ⟨by simp only [downTurn, herr, error_bind], hzero⟩

/-- Nothing lies below the diagonal, and the columns from `i` on are those of the identity. -/
structure Up (M : ByteMatrix rows rows) (i : Nat) (p : Pair rows) : Prop extends Down M rows p where
  high : ∀ b < rows, i ≤ b → ∀ s < rows, p.mat.get s b = unitRow s b

/-- The entries above row `i` in column `i` are cleared down to row `j`. -/
structure Above (M : ByteMatrix rows rows) (i j : Nat) (p : Pair rows) : Prop extends Up M (i + 1) p where
  cleared : ∀ s < j, s < i → p.mat.get s i = 0

theorem Up.row {M : ByteMatrix rows rows} {i : Nat} {p : Pair rows} (h : Up M (i + 1) p)
    (hi : i < rows) : ∀ b < rows, p.mat.get i b = unitRow i b := by
  intro b hb
  rcases Nat.lt_or_ge i b with hlt | hge
  · exact h.high b hb hlt i hi
  · exact h.low b hb i hi hge

theorem get_clearAbove {M : ByteMatrix rows rows} {i : Nat} {p : Pair rows} (h : Up M (i + 1) p)
    (hi : i < rows) (j : Nat) {s b : Nat} (hs : s < rows) (hb : b < rows) :
    (clearAbove i p j).mat.get s b =
        p.mat.get s b + (if s = j then p.mat.get j i else 0) * p.mat.get i b ∧
      (clearAbove i p j).inv.get s b =
        p.inv.get s b + (if s = j then p.mat.get j i else 0) * p.inv.get i b := by
  rw [h.row hi b hb]
  unfold clearAbove unitRow
  by_cases h0 : p.mat.get j i = 0
  · simp [h0]
  · by_cases hsj : s = j
    · subst s
      by_cases hbi : b = i
      · subst b
        simp [h0, hs, hb, galoisSingleMultiply_eq, add_self]
      · simp [h0, hs, hb, hbi, galoisSingleMultiply_eq]
    · simp [h0, hs, hb, hsj]

theorem Above.clearAbove {M : ByteMatrix rows rows} {i j : Nat} {p : Pair rows} (h : Above M i j p)
    (hi : i < rows) (hj : j < i) : Above M i (j + 1) (clearAbove i p j) := by
  have hget : ∀ s < rows, ∀ b < rows, _ := fun s hs b hb => get_clearAbove h.toUp hi j hs hb
  have hother : ∀ s < rows, ∀ b < rows, b ≠ i → (Inversion.clearAbove i p j).mat.get s b = p.mat.get s b := by
    intro s hs b hb hbi
    rw [(hget s hs b hb).1, h.row hi b hb, show unitRow (F := Byte) i b = 0 from if_neg hbi, mul_zero,
      add_zero]
  have hcolumn : ∀ s < rows, s ≠ j → (Inversion.clearAbove i p j).mat.get s i = p.mat.get s i := by
    intro s hs hsj
    rw [(hget s hs i hi).1, if_neg hsj, zero_mul, add_zero]
  refine ⟨⟨⟨?_, fun b hb s hs hbs => ?_⟩, fun b hb hib s hs => ?_⟩, fun s hs hsi => ?_⟩
  · exact h.reduces.add (by omega) hi (p.mat.get j i) (fun s hs b hb => (hget s hs b hb).1)
      (fun s hs b hb => (hget s hs b hb).2)
  · by_cases hbi : b = i
    · rw [hbi, hcolumn s hs (by omega)]
      exact h.low i hi s hs (by omega)
    · rw [hother s hs b hb hbi]
      exact h.low b hb s hs hbs
  · rw [hother s hs b hb (by omega)]
    exact h.high b hb hib s hs
  · by_cases hsj : s = j
    · rw [(hget s (by omega) i hi).1, if_pos hsj, h.row hi i hi, unitRow, if_pos rfl, mul_one, hsj]
      exact add_self _
    · rw [hcolumn s (by omega) hsj]
      exact h.cleared s (by omega) hsi

theorem upTurn_spec {M : ByteMatrix rows rows} {i : Nat} {p : Pair rows} (h : Up M (i + 1) p)
    (hi : i < rows) : Up M i (upTurn i p) := by
  have hall : Above M i i (upTurn i p) := by
    apply Loops.foldl_range (fun j => Above M i j) i
    · intro j hj p hp
      exact hp.clearAbove hi hj
    · exact ⟨h, fun s hs => absurd hs (by omega)⟩
  refine ⟨hall.toDown, fun b hb hib s hs => ?_⟩
  rcases Nat.lt_or_ge i b with hlt | hge
  · exact hall.high b hb hlt s hs
  · obtain rfl : b = i := by omega
    rcases Nat.lt_or_ge s b with hsb | hbs
    · rw [hall.cleared s hsb hsb, unitRow, if_neg (by omega)]
    · exact hall.low b hb s hs hbs

/-- Either the rows are inverted, or some vector that is not zero is orthogonal to all of
them and -1 is returned. -/
theorem invertMatrix_cases (M : ByteMatrix rows rows) :
    (∃ inv, invertMatrix M = .ok inv ∧ ∀ s < rows, ∀ c, dot rows (inv.get s) (fun t => dot rows (M.get t) c) = c s) ∨
      invertMatrix M = .error .notInvertible ∧
        ∃ c : Nat → Byte, (∃ s < rows, c s ≠ 0) ∧ ∀ s < rows, dot rows (M.get s) c = 0 := by
  let identity : ByteMatrix rows rows := Table.ofFn rows rows fun i j => if i = j then 1 else 0
  have hstart : Down M 0 ⟨M, identity⟩ := by
    refine ⟨Reduces.refl fun s hs b hb => ?_, fun b hb => absurd hb (by omega)⟩
    rw [Table.get_ofFn _ hs hb, unitRow]
    simp only [eq_comm]
  have hdown : ∀ i < rows, ∀ p p', Down M i p → downTurn p i = .ok p' → Down M (i + 1) p' := by
    intro i hi p p' hp hp'
    rcases downTurn_spec hp hi with ⟨q, hq, hd⟩ | ⟨herr, _⟩
    · rw [hq] at hp'
      cases hp'
      exact hd
    · rw [herr] at hp'
      cases hp'
  rcases Loops.foldlM_range_or (Down M) rows hstart hdown with ⟨p, hp, hd⟩ | ⟨i, hi, p, e, hd, he, hrun⟩
  · have hup : Up M 0 ((List.range rows).foldr upTurn p) := by
      apply Loops.foldr_range (Up M) rows
      · intro i hi p hp
        exact upTurn_spec hp hi
      · exact ⟨hd, fun b hb hle => absurd hb (by omega)⟩
    refine .inl ⟨((List.range rows).foldr upTurn p).inv, ?_, fun s hs c => ?_⟩
    · simp only [invertMatrix, identity] at hp ⊢
      rw [hp]
      rfl
    · exact hup.reduces.inverts (fun s hs b hb => hup.high b hb (Nat.zero_le b) s hs) hs c
  · rcases downTurn_spec hd hi with ⟨q, hq, _⟩ | ⟨herr, hzero⟩
    · rw [hq] at he
      cases he
    · rw [herr] at he
      cases he
      refine .inr ⟨by simp only [invertMatrix, hrun, error_bind, identity], ?_⟩
      apply hd.reduces.exists_kernel hi
      · intro b hb s hs his
        rw [hd.low b hb s hs (by omega), unitRow, if_neg (by omega)]
      · exact hzero

/-- The rows of the table, as a matrix. -/
def toMatrix (d : ByteMatrix rows rows) : Matrix (Fin rows) (Fin rows) Byte :=
  Matrix.of fun i j => d.get i j

theorem mulVec_toMatrix (d : ByteMatrix rows rows) (c : Nat → Byte) (s : Fin rows) :
    (toMatrix d).mulVec (fun i => c i) s = dot rows (d.get s) c :=
  Fin.sum_univ_eq_sum_range (fun i => d.get s i * c i) rows

theorem toMatrix_injective : Function.Injective (@toMatrix rows) := by
  intro d e h
  apply Table.ext_get
  intro i hi j hj
  exact congrFun (congrFun h ⟨i, hi⟩) ⟨j, hj⟩

/-- The elimination returns the inverse of every invertible matrix, and -1 for every other. -/
theorem invertMatrix_eq_ok_iff (M inv : ByteMatrix rows rows) :
    (invertMatrix M = .ok inv ↔ IsUnit (toMatrix M).det ∧ toMatrix inv = (toMatrix M)⁻¹) ∧
      (¬ IsUnit (toMatrix M).det → invertMatrix M = .error .notInvertible) := by
  have hcover : ∀ v : Fin rows → Byte, ∃ c : Nat → Byte, v = fun i : Fin rows => c i := by
    intro v
    exact ⟨fun i => if h : i < rows then v ⟨i, h⟩ else 0, by simp⟩
  rcases invertMatrix_cases M with ⟨inv', hok, hleft⟩ | ⟨herr, c, ⟨s, hs, hne⟩, hc⟩
  · have hmul : toMatrix inv' * toMatrix M = 1 := by
      rw [← Matrix.mulVec_injective.eq_iff]
      funext v
      obtain ⟨c, rfl⟩ := hcover v
      ext s
      rw [← Matrix.mulVec_mulVec, Matrix.one_mulVec, ← hleft s s.2 c, ← mulVec_toMatrix inv']
      congr 1
      funext t
      rw [mulVec_toMatrix]
    have hdet : IsUnit (toMatrix M).det := Matrix.isUnit_det_of_left_inverse hmul
    have hinv : toMatrix inv' = (toMatrix M)⁻¹ := (Matrix.inv_eq_left_inv hmul).symm
    refine ⟨⟨fun h => ?_, fun h => ?_⟩, fun h => absurd hdet h⟩
    · rw [hok] at h
      cases h
      exact ⟨hdet, hinv⟩
    · rw [hok, toMatrix_injective (h.2.trans hinv.symm)]
  · have hdet : (toMatrix M).det = 0 := by
      apply Matrix.exists_mulVec_eq_zero_iff.mp
      refine ⟨fun i => c i, fun h => hne (congrFun h ⟨s, hs⟩), ?_⟩
      funext t
      rw [mulVec_toMatrix, hc t t.2, Pi.zero_apply]
    refine ⟨⟨fun h => ?_, fun h => ?_⟩, fun _ => herr⟩
    · rw [herr] at h
      cases h
    · rw [hdet] at h
      exact absurd h.1 not_isUnit_zero

end OptLrc.Inversion
