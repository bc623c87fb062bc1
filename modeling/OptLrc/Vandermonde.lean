import OptLrc.Independence
import OptLrc.Loops
import OptLrc.Tables
import OptLrc.Dependent

namespace OptLrc.Vandermonde

open OptLrc.Galois OptLrc.Memory OptLrc.Jerasure OptLrc.Distance OptLrc.Codes OptLrc.Tolerance
  OptLrc.Dependent
  OptLrc.Independence OptLrc.Tables

/-- What stops a computation with matrices: `exit(1)`, the return of -1 for a singular
matrix, or the -1 of a division by zero used as an index of the multiplication table. -/
inductive MatrixFault
  | couldNotMake
  | notInvertible
  | badIndex
  deriving DecidableEq, Repr

/-- The table entry `galois_div_tables[8][a << 8 | b]`; -1 is `none`. The table of powers
is read at `log a - log b`, which may be negative: the table starts 255 cells before. -/
def galoisSingleDivide (a b : Byte) : Option Byte :=
  if b = 0 then none
  else if a = 0 then some 0
  else some (galoisIlog (255 + galoisLog a - galoisLog b))

def divideOne (b : Byte) : Except MatrixFault Byte :=
  match galoisSingleDivide 1 b with
  | none => .error .badIndex
  | some x => .ok x

abbrev ByteMatrix := Table Byte

variable {rows cols : Nat}

def extendedVandermondeMatrix (rows cols : Nat) : Option (ByteMatrix rows cols) :=
  if 2 ^ 8 < rows then none
  else if 2 ^ 8 < cols then none
  else some <| Table.ofFn rows cols fun i j =>
    if i = 0 then if j = 0 then 1 else 0
    else if i = rows - 1 then if j = cols - 1 then 1 else 0
    else (galoisSingleMultiply · (Byte.ofNat i))^[j] 1

/-- The first row from `i` on with an entry in column `i`. -/
def findRow (dist : ByteMatrix rows cols) (i : Nat) : Except MatrixFault Nat :=
  match (List.range' i (rows - i)).find? fun j => dist.get j i ≠ 0 with
  | none => .error .couldNotMake
  | some j => .ok j

/-- Column `i` from row `top` on, times `1 / tmp`. -/
def divideColumn (top : Nat) (dist : ByteMatrix rows cols) (i : Nat) (tmp : Byte) :
    Except MatrixFault (ByteMatrix rows cols) := do
  if tmp ≠ 1 then
    let inverse ← divideOne tmp
    return dist.mapColumn top i fun _ x => galoisSingleMultiply inverse x
  else return dist

def clearEntry (i : Nat) (dist : ByteMatrix rows cols) (j : Nat) : ByteMatrix rows cols :=
  let tmp := dist.get i j
  if j ≠ i ∧ tmp ≠ 0 then
    dist.mapColumn 0 j fun a x => x + galoisSingleMultiply tmp (dist.get a i)
  else dist

/-- One turn of the loop that makes row `i` a row of the identity. -/
def unitTurn (dist : ByteMatrix rows cols) (i : Nat) : Except MatrixFault (ByteMatrix rows cols) := do
  let j ← findRow dist i
  let dist := if j ≠ i then dist.swapRows i j else dist
  let dist ← divideColumn 0 dist i (dist.get i i)
  return (List.range cols).foldl (clearEntry i) dist

def onesTurn (dist : ByteMatrix rows cols) (j : Nat) : Except MatrixFault (ByteMatrix rows cols) :=
  divideColumn cols dist j (dist.get cols j)

def firstTurn (dist : ByteMatrix rows cols) (i : Nat) : Except MatrixFault (ByteMatrix rows cols) := do
  let tmp := dist.get i 0
  if tmp ≠ 1 then
    let inverse ← divideOne tmp
    return dist.mapRow i fun _ x => galoisSingleMultiply x inverse
  else return dist

def bigVandermondeDistributionMatrix (rows cols : Nat) :
    Except MatrixFault (Option (ByteMatrix rows cols)) :=
  if rows ≤ cols then .ok none
  else match extendedVandermondeMatrix rows cols with
    | none => .ok none
    | some dist => do
      let dist ← (List.range' 1 (cols - 1)).foldlM unitTurn dist
      let dist ← (List.range cols).foldlM onesTurn dist
      return some (← (List.range' (cols + 1) (rows - (cols + 1))).foldlM firstTurn dist)

/-- `reed_sol_vandermonde_coding_matrix(k, m, 8)`: the rows below the identity. -/
def vandermondeCodingMatrix (k m : Nat) : Except MatrixFault (Option (ByteMatrix m k)) := do
  match ← bigVandermondeDistributionMatrix (k + m) k with
  | none => return none
  | some dist => return some (Table.ofFn m k fun i j => dist.get (k + i) j)

theorem galoisLog_lt {b : Byte} (hb : b ≠ 0) : galoisLog b < 255 := by
  obtain ⟨i, hi, he⟩ := exists_galoisIlog b hb
  have h : ∀ fuel j c, (∃ i < fuel, double^[i] c = b) → logSearch b fuel j c < j + fuel := by
    intro fuel
    induction fuel with
    | zero => rintro j c ⟨i, hi, _⟩; omega
    | succ fuel ih =>
      rintro j c ⟨i, hi, he⟩
      by_cases hc : c = b
      · simp [logSearch, hc]
      · cases i with
        | zero => exact absurd he hc
        | succ i =>
          have := ih (j + 1) (double c) ⟨i, by omega, he⟩
          simp only [logSearch, hc, if_false]
          omega
  exact (h 255 0 1 ⟨i, hi, he⟩).trans_eq (by simp)

theorem galoisSingleDivide_eq (a : Byte) {b : Byte} (hb : b ≠ 0) :
    galoisSingleDivide a b = some (a / b) := by
  by_cases ha : a = 0
  · simp [galoisSingleDivide, hb, ha]
  · have hlog := galoisLog_lt hb
    have hinv : b⁻¹ = galoisIlog (255 - galoisLog b) := if_neg hb
    have hmul : a / b = galoisIlog (galoisLog a) * galoisIlog (255 - galoisLog b) := by
      rw [div_eq_mul_inv, hinv, galoisIlog_galoisLog a ha]
    simp only [galoisSingleDivide, hb, ha, if_false, hmul]
    congr 1
    rw [show 255 + galoisLog a - galoisLog b = galoisLog a + (255 - galoisLog b) by omega,
      galoisIlog_add]
    rfl

theorem divideOne_eq {b : Byte} (hb : b ≠ 0) : divideOne b = .ok b⁻¹ := by
  rw [divideOne, galoisSingleDivide_eq 1 hb, one_div]

theorem divideColumn_spec (top : Nat) (dist : ByteMatrix rows cols) (i : Nat) {tmp : Byte}
    (ht : tmp ≠ 0) : ∃ dist', divideColumn top dist i tmp = .ok dist' ∧
      ∀ a < rows, ∀ b < cols, dist'.get a b =
        if b = i ∧ top ≤ a then tmp⁻¹ * dist.get a b else dist.get a b := by
  unfold divideColumn
  split
  · rw [divideOne_eq ht]
    refine ⟨_, rfl, fun a ha b hb => ?_⟩
    simp only [Table.get_mapColumn, ha, hb, galoisSingleMultiply_eq]
  · next h =>
    refine ⟨dist, rfl, fun a ha b hb => ?_⟩
    have h1 : tmp = 1 := not_not.mp h
    simp [h1]

theorem get_clearEntry (i : Nat) (dist : ByteMatrix rows cols) (j : Nat) {a b : Nat} (ha : a < rows)
    (hb : b < cols) : (clearEntry i dist j).get a b =
      if b = j ∧ j ≠ i then dist.get a b + dist.get i j * dist.get a i else dist.get a b := by
  unfold clearEntry
  by_cases hj : j = i
  · simp [hj]
  · by_cases ht : dist.get i j = 0
    · simp [ht]
    · simp [hj, ht, ha, hb, galoisSingleMultiply_eq]

/-- The first `i` rows are those of the identity, and any `cols` rows are independent. -/
structure Unit (i : Nat) (dist : ByteMatrix rows cols) : Prop where
  any : AnyRows dist.get rows cols
  unit : ∀ s < i, ∀ b < cols, dist.get s b = unitRow s b

theorem findRow_spec {i : Nat} {dist : ByteMatrix rows cols} (h : Unit i dist) (hle : cols ≤ rows)
    (hi : i < cols) :
    ∃ j, findRow dist i = .ok j ∧ i ≤ j ∧ j < rows ∧ dist.get j i ≠ 0 := by
  obtain ⟨j, hij, hj, hne⟩ := h.any.exists_pivot hle hi h.unit
  unfold findRow
  cases hf : (List.range' i (rows - i)).find? fun j => dist.get j i ≠ 0 with
  | none =>
    have := List.find?_eq_none.mp hf j (by rw [List.mem_range'_1]; omega)
    exact absurd hne (by simpa using this)
  | some t =>
    have hmem := List.mem_of_find?_eq_some hf
    have hp := List.find?_some hf
    rw [List.mem_range'_1] at hmem
    exact ⟨t, rfl, hmem.1, by omega, by simpa using hp⟩

theorem Unit.swapRows {i : Nat} {dist : ByteMatrix rows cols} (h : Unit i dist) {j : Nat} (hij : i ≤ j)
    (hj : j < rows) : Unit i (dist.swapRows i j) := by
  constructor
  · apply (h.any.permute (Equiv.swap i j) (fun s hs => swap_lt (by omega) hj hs)).congr
    intro s hs b hb
    exact dist.get_swapRows i j hs hb
  · intro s hs b hb
    rw [dist.get_swapRows i j (by omega) hb, Equiv.swap_apply_of_ne_of_ne (by omega) (by omega)]
    exact h.unit s hs b hb

/-- Column `i` is zero in the rows above, so scaling it leaves them. -/
theorem Unit.scaleColumn {i : Nat} {dist dist' : ByteMatrix rows cols} (h : Unit i dist)
    (hrows : i ≤ rows) {x : Byte} (hx : x ≠ 0)
    (hget : ∀ a < rows, ∀ b < cols, dist'.get a b =
      if b = i ∧ 0 ≤ a then x * dist.get a b else dist.get a b) : Unit i dist' := by
  constructor
  · apply (h.any.scaleColumn i hx).congr
    intro s hs b hb
    rw [hget s hs b hb]
    by_cases hbi : b = i <;> simp [hbi]
  · intro s hs b hb
    rw [hget s (by omega) b hb]
    split
    · next hbi =>
      rw [h.unit s hs b hb, hbi.1, unitRow, if_neg (by omega), mul_zero]
    · exact h.unit s hs b hb

/-- What the loop over the columns has done to the table before column `j`. -/
structure Cleared (i : Nat) (dist : ByteMatrix rows cols) (j : Nat) (dist' : ByteMatrix rows cols) : Prop where
  unit : Unit i dist'
  get : ∀ b < cols, dist'.get i b = if b < j ∧ b ≠ i then 0 else dist.get i b

theorem Cleared.clearEntry {i j : Nat} {dist dist' : ByteMatrix rows cols} (h : Cleared i dist j dist')
    (hi : i < cols) (hrows : i < rows) (hj : j < cols) (hone : dist.get i i = 1) :
    Cleared i dist (j + 1) (clearEntry i dist' j) := by
  have hpivot : dist'.get i i = 1 := by
    rw [h.get i hi, if_neg (by simp), hone]
  constructor
  · constructor
    · by_cases hji : j = i
      · apply h.unit.any.congr
        intro s hs b hb
        rw [get_clearEntry i dist' j hs hb, if_neg (by simp [hji])]
      · apply (h.unit.any.addColumn hji hi hj (dist'.get i j)).congr
        intro s hs b hb
        rw [get_clearEntry i dist' j hs hb]
        by_cases hbj : b = j
        · simp [hbj, hji]
        · simp [hbj]
    · intro s hs b hb
      rw [get_clearEntry i dist' j (by omega) hb]
      split
      · rw [h.unit.unit s hs i hi, show unitRow (F := Byte) s i = 0 from if_neg (by omega), mul_zero,
          add_zero]
        exact h.unit.unit s hs b hb
      · exact h.unit.unit s hs b hb
  · intro b hb
    rw [get_clearEntry i dist' j hrows hb]
    by_cases hbj : b = j
    · by_cases hji : j = i
      · simp [hbj, hji, hpivot, hone]
      · rw [if_pos ⟨hbj, hji⟩, hpivot, mul_one, hbj, if_pos ⟨by omega, hji⟩]
        exact add_self _
    · rw [if_neg (by simp [hbj]), h.get b hb]
      simp only [show b < j + 1 ↔ b < j by omega]

theorem unitTurn_spec {i : Nat} {dist : ByteMatrix rows cols} (h : Unit i dist) (hlt : cols < rows)
    (hi : i < cols) : ∃ dist', unitTurn dist i = .ok dist' ∧ Unit (i + 1) dist' := by
  obtain ⟨j, hfind, hij, hj, hne⟩ := findRow_spec h hlt.le hi
  -- The table with the pivot in row `i`, whether or not rows were swapped.
  obtain ⟨swapped, hswap, hu, hpivot⟩ : ∃ swapped : ByteMatrix rows cols,
      (if j ≠ i then dist.swapRows i j else dist) = swapped ∧ Unit i swapped ∧
        swapped.get i i ≠ 0 := by
    by_cases hji : j = i
    · exact ⟨dist, if_neg (by simp [hji]), h, by rwa [hji] at hne⟩
    · refine ⟨_, if_pos hji, h.swapRows hij hj, ?_⟩
      rwa [dist.get_swapRows i j (by omega) hi, Equiv.swap_apply_left]
  obtain ⟨scaled, hdiv, hget⟩ := divideColumn_spec 0 swapped i hpivot
  have hus := hu.scaleColumn (by omega) (inv_ne_zero hpivot) hget
  have hone : scaled.get i i = 1 := by
    rw [hget i (by omega) i hi, if_pos ⟨rfl, Nat.zero_le i⟩, inv_mul_cancel₀ hpivot]
  have hclear : Cleared i scaled cols ((List.range cols).foldl (clearEntry i) scaled) := by
    apply Loops.foldl_range (fun j => Cleared i scaled j) cols
    · intro j hj dist' hd
      exact hd.clearEntry hi (by omega) hj hone
    · exact ⟨hus, fun b _ => by simp⟩
  refine ⟨(List.range cols).foldl (clearEntry i) scaled, ?_, hclear.unit.any, fun s hs b hb => ?_⟩
  · simp only [unitTurn, hfind, ok_bind, hswap, hdiv, pure_eq_ok]
  · by_cases hsi : s = i
    · rw [hsi, hclear.get b hb, unitRow]
      by_cases hbi : b = i
      · simp [hbi, hone]
      · simp [hbi, hb]
    · exact hclear.unit.unit s (by omega) b hb

/-- Scaling the coding rows of a column is scaling the column and then its row of the
identity, which comes back to what it was. -/
theorem Unit.scaleCoding {dist dist' : ByteMatrix rows cols} (h : Unit cols dist) (hle : cols ≤ rows)
    {j : Nat} {tmp : Byte} (ht : tmp ≠ 0) (hget : ∀ a < rows, ∀ b < cols, dist'.get a b =
      if b = j ∧ cols ≤ a then tmp⁻¹ * dist.get a b else dist.get a b) : Unit cols dist' := by
  have hunit : ∀ s < cols, ∀ b < cols, dist'.get s b = unitRow s b := by
    intro s hs b hb
    rw [hget s (by omega) b hb, if_neg (by omega)]
    exact h.unit s hs b hb
  refine ⟨?_, hunit⟩
  apply ((h.any.scaleColumn j (inv_ne_zero ht)).scaleRows
    (x := fun s => if s = j ∧ s < cols then tmp else 1) (fun s _ => by split <;> simp [ht])).congr
  intro s hs b hb
  by_cases hsc : s < cols
  · rw [hunit s hsc b hb, h.unit s hsc b hb]
    by_cases hbs : b = s
    · by_cases hsj : s = j
      · simp [unitRow, hbs, hsj, ht, hsj ▸ hsc]
      · simp [unitRow, hbs, hsj]
    · simp [unitRow, hbs]
  · rw [hget s hs b hb]
    simp [hsc, show cols ≤ s by omega]

theorem Unit.entry_ne_zero {dist : ByteMatrix rows cols} (h : Unit cols dist) {s j : Nat}
    (hs : cols ≤ s) (hlt : s < rows) (hj : j < cols) : dist.get s j ≠ 0 :=
  h.any.entry_ne_zero h.unit hs hlt hj

/-- The identity over the coding rows, with the first of these normalised up to column `j`. -/
structure Ones (j : Nat) (dist : ByteMatrix rows cols) : Prop extends Unit cols dist where
  ones : ∀ b < j, dist.get cols b = 1

theorem onesTurn_spec {j : Nat} {dist : ByteMatrix rows cols} (h : Ones j dist) (hlt : cols < rows)
    (hj : j < cols) : ∃ dist', onesTurn dist j = .ok dist' ∧ Ones (j + 1) dist' := by
  have hne := h.entry_ne_zero le_rfl hlt hj
  obtain ⟨dist', hdiv, hget⟩ := divideColumn_spec cols dist j hne
  refine ⟨dist', hdiv, h.scaleCoding hlt.le hne hget, fun b hb => ?_⟩
  rw [hget cols hlt b (by omega)]
  by_cases hbj : b = j
  · rw [if_pos ⟨hbj, le_rfl⟩, hbj, inv_mul_cancel₀ hne]
  · rw [if_neg (by simp [hbj]), h.ones b (by omega)]

/-- The first column is normalised too, in the coding rows up to row `i`. -/
structure First (i : Nat) (dist : ByteMatrix rows cols) : Prop extends Ones cols dist where
  first : ∀ a < i, cols < a → dist.get a 0 = 1

theorem firstTurn_spec {i : Nat} {dist : ByteMatrix rows cols} (h : First i dist) (hcols : 0 < cols)
    (hci : cols < i) (hi : i < rows) :
    ∃ dist', firstTurn dist i = .ok dist' ∧ First (i + 1) dist' := by
  have hne := h.entry_ne_zero hci.le hi hcols
  obtain ⟨dist', hdiv, hget⟩ : ∃ dist', firstTurn dist i = .ok dist' ∧
      ∀ a < rows, ∀ b < cols, dist'.get a b =
        (if a = i then (dist.get i 0)⁻¹ else 1) * dist.get a b := by
    unfold firstTurn
    by_cases h1 : dist.get i 0 = 1
    · refine ⟨dist, by simp [h1], fun a _ b _ => by simp [h1]⟩
    · simp only [h1, ne_eq, not_false_eq_true, if_true, divideOne_eq hne]
      refine ⟨_, rfl, fun a ha b hb => ?_⟩
      rw [dist.get_mapRow i _ ha hb]
      by_cases hai : a = i <;> simp [hai, galoisSingleMultiply_eq, mul_comm]
  refine ⟨dist', hdiv, ⟨⟨⟨?_, fun s hs b hb => ?_⟩, fun b hb => ?_⟩, fun a ha hca => ?_⟩⟩
  · apply (h.any.scaleRows (x := fun s => if s = i then (dist.get i 0)⁻¹ else 1)
      (fun s _ => by split <;> simp [hne])).congr
    exact hget
  · rw [hget s (by omega) b hb, if_neg (by omega), one_mul]
    exact h.unit s hs b hb
  · rw [hget cols (by omega) b hb, if_neg (by omega), one_mul]
    exact h.ones b hb
  · rw [hget a (by omega) 0 hcols]
    by_cases hai : a = i
    · rw [if_pos hai, hai, inv_mul_cancel₀ hne]
    · rw [if_neg hai, one_mul]
      exact h.first a (by omega) hca

theorem extendedVandermondeMatrix_spec (hcols : 0 < cols) (hlt : cols < rows) (hrows : rows ≤ 256) :
    ∃ dist, extendedVandermondeMatrix rows cols = some dist ∧ Unit 1 dist := by
  have hpow : ∀ (x : Byte) (j : Nat), (galoisSingleMultiply · x)^[j] 1 = x ^ j := by
    intro x j
    induction j with
    | zero => rfl
    | succ j ih => rw [Function.iterate_succ_apply', ih, galoisSingleMultiply_eq, pow_succ]
  refine ⟨_, by rw [extendedVandermondeMatrix, if_neg (by omega), if_neg (by omega)], ?_, ?_⟩
  · apply (@anyRows_pointRow _ _ _ _ Byte.ofNat hcols (ofNat_injOn (by omega))).congr
    intro s hs b hb
    rw [Table.get_ofFn _ hs hb, hpow]
    by_cases hs0 : s = 0
    · subst hs0
      have hrow : pointRow Byte.ofNat rows cols 0 b = 0 ^ b := if_neg (by omega)
      rw [if_pos rfl, hrow, zero_pow_eq]
    · rw [if_neg hs0]
      rfl
  · intro s hs b hb
    rw [Table.get_ofFn _ (by omega) hb, if_pos (by omega), unitRow]
    simp [show s = 0 by omega]

theorem bigVandermondeDistributionMatrix_spec (hcols : 0 < cols) (hlt : cols < rows)
    (hrows : rows ≤ 256) : ∃ dist, bigVandermondeDistributionMatrix rows cols = .ok (some dist) ∧
      First rows dist := by
  obtain ⟨dist, hext, hunit⟩ := extendedVandermondeMatrix_spec hcols hlt hrows
  obtain ⟨dist₁, h1, hu⟩ := Loops.foldlM_range' (fun i (d : ByteMatrix rows cols) => Unit i d) 1 (cols - 1)
    (fun i _ h d hd => unitTurn_spec hd hlt (by omega)) hunit
  rw [show 1 + (cols - 1) = cols by omega] at hu
  obtain ⟨dist₂, h2, ho⟩ := Loops.foldlM_range (fun j (d : ByteMatrix rows cols) => Ones j d) cols
    (fun j hj d hd => onesTurn_spec hd hlt hj) ⟨hu, fun b hb => absurd hb (by omega)⟩
  obtain ⟨dist₃, h3, hf⟩ := Loops.foldlM_range' (fun i (d : ByteMatrix rows cols) => First i d) (cols + 1)
    (rows - (cols + 1)) (fun i h h' d hd => firstTurn_spec hd hcols (by omega) (by omega))
    ⟨ho, fun a h h' => absurd h (by omega)⟩
  rw [show cols + 1 + (rows - (cols + 1)) = rows by omega] at hf
  refine ⟨dist₃, ?_, hf⟩
  rw [bigVandermondeDistributionMatrix, if_neg (by omega), hext]
  simp only [h1, h2, h3, ok_bind, pure_eq_ok]

theorem mds_congr {A B : Nat → Nat → Byte} {k m : Nat} (hA : Mds A k m)
    (h : ∀ j < m, ∀ i < k, B j i = A j i) : Mds B k m := by
  intro known hsub hcard c hc
  apply hA known hsub hcard
  intro s hs
  have hlt := Finset.mem_range.mp (hsub hs)
  rw [← hc s hs]
  unfold symbol
  split
  · rfl
  · apply Finset.sum_congr rfl
    intro i hi
    rw [h (s - k) (by omega) i (Finset.mem_range.mp hi)]

/-- The constructed matrix makes any `k` of the `k + m` symbols determine the others. -/
theorem First.mds {k m : Nat} {dist : ByteMatrix (k + m) k} (h : First (k + m) dist) :
    Mds (fun i j => dist.get (k + i) j) k m := by
  intro known hsub hcard c hc
  apply h.any known hsub hcard
  intro s hs
  have hlt := Finset.mem_range.mp (hsub hs)
  rw [← hc s hs, symbol_eq_sum]
  apply dot_congr
  intro i hi
  unfold coefficient
  split
  · next hsk => rw [h.unit s hsk i hi, unitRow]
  · next hsk =>
    have : k + (s - k) = s := by omega
    simp only [this]

theorem vandermondeCodingMatrix_none {k m : Nat} (h : m = 0 ∨ 256 < k + m) :
    vandermondeCodingMatrix k m = .ok none := by
  have hnone : bigVandermondeDistributionMatrix (k + m) k = .ok none := by
    by_cases hm : m = 0
    · rw [bigVandermondeDistributionMatrix, if_pos (by omega)]
    · rw [bigVandermondeDistributionMatrix, if_neg (by omega), extendedVandermondeMatrix,
        if_pos (by omega)]
  rw [vandermondeCodingMatrix, hnone]
  rfl

theorem vandermondeCodingMatrix_some {k m : Nat} (hk : 0 < k) (hm : 0 < m) (hkm : k + m ≤ 256) :
    ∃ V, vandermondeCodingMatrix k m = .ok (some V) ∧
      Mds V.get k m ∧ (∀ i < k, V.get 0 i = 1) ∧ ∀ j < m, V.get j 0 = 1 := by
  obtain ⟨dist, hdist, h⟩ := bigVandermondeDistributionMatrix_spec hk (show k < k + m by omega) hkm
  have hget : ∀ j < m, ∀ i < k, (Table.ofFn m k fun i j => dist.get (k + i) j).get j i =
      dist.get (k + j) i := fun j hj i hi => Table.get_ofFn _ hj hi
  refine ⟨_, by rw [vandermondeCodingMatrix, hdist]; rfl, mds_congr h.mds hget, fun i hi => ?_, fun j hj => ?_⟩
  · rw [hget 0 hm i hi]
    exact h.ones i hi
  · rw [hget j hj 0 hk]
    rcases Nat.eq_zero_or_pos j with rfl | hj0
    · exact h.ones 0 hk
    · exact h.first (k + j) (by omega) (by omega)

/-- A coding matrix is made exactly when the field has a point for every row, and then any
`k` symbols determine the others and the first row and the first column are ones. -/
theorem vandermondeCodingMatrix_spec {k m : Nat} (hk : 0 < k) :
    (m = 0 ∨ 256 < k + m → vandermondeCodingMatrix k m = .ok none) ∧
    (0 < m ∧ k + m ≤ 256 → ∃ V, vandermondeCodingMatrix k m = .ok (some V) ∧
      Mds V.get k m ∧ (∀ i < k, V.get 0 i = 1) ∧ ∀ j < m, V.get j 0 = 1) :=
  ⟨vandermondeCodingMatrix_none, fun h => vandermondeCodingMatrix_some hk h.1 h.2⟩

theorem vandermondeCodingMatrix_four :
    vandermondeCodingMatrix 4 253 = .ok none ∧
    ∃ V, vandermondeCodingMatrix 4 2 = .ok (some V) ∧ Mds V.get 4 2 := by
  have hk : 0 < 4 := by decide
  obtain ⟨V, hV, hmds, -⟩ := (vandermondeCodingMatrix_spec hk).2 (by decide : 0 < 2 ∧ 4 + 2 ≤ 256)
  exact ⟨(vandermondeCodingMatrix_spec hk).1 (by decide), V, hV, hmds⟩

/-- The coding matrix that the client uses, by its entries. -/
def codingMatrix : CodingMatrix := fun k m j i =>
  match vandermondeCodingMatrix k m with
  | .ok (some V) => V.get j i
  | _ => 0

theorem codingMatrix_eq {k m : Nat} {V : ByteMatrix m k} (h : vandermondeCodingMatrix k m = .ok (some V)) :
    codingMatrix k m = V.get := by
  funext j i
  rw [codingMatrix, h]

theorem systematic_codingMatrix : Systematic codingMatrix where
  ones := fun k m j hm hkm hj => by
    obtain ⟨V, hV, _, hone, _⟩ := vandermondeCodingMatrix_some (by omega) hm hkm
    rw [codingMatrix_eq hV]
    exact hone j hj
  mds := fun k m hkm => by
    rcases Nat.eq_zero_or_pos m with rfl | hm
    · exact mds_zero _ k
    · rcases Nat.eq_zero_or_pos k with rfl | hk
      · exact fun _ _ _ _ _ s hs => absurd hs (by omega)
      · obtain ⟨V, hV, hmds, _⟩ := vandermondeCodingMatrix_some hk hm hkm
        rwa [codingMatrix_eq hV]

end OptLrc.Vandermonde
