import Mathlib.Algebra.BigOperators.Intervals
import Mathlib.Algebra.CharP.Two
import Mathlib.Algebra.Field.Basic
import Mathlib.Data.BitVec
import Mathlib.Data.Fintype.Card
import Mathlib.Tactic.Push

namespace OptLrc.Galois

/-- A byte, which the coder reads as an element of GF(2^8). -/
def Byte := BitVec 8

instance : DecidableEq Byte := inferInstanceAs (DecidableEq (BitVec 8))
instance : Inhabited Byte := ⟨(0#8 : BitVec 8)⟩
instance : Repr Byte := inferInstanceAs (Repr (BitVec 8))

def Byte.ofNat (n : Nat) : Byte := BitVec.ofNat 8 n

def Byte.toNat (b : Byte) : Nat := BitVec.toNat b

instance : Add Byte := ⟨BitVec.xor⟩
instance : Zero Byte := ⟨0#8⟩
instance : One Byte := ⟨1#8⟩
instance : Neg Byte := ⟨id⟩

instance : AddCommGroup Byte where
  add_assoc := BitVec.xor_assoc
  zero_add a := BitVec.zero_xor
  add_zero a := BitVec.xor_zero
  add_comm := BitVec.xor_comm
  neg_add_cancel a := BitVec.xor_self
  nsmul := nsmulRec
  zsmul := zsmulRec

theorem add_self (a : Byte) : a + a = 0 := BitVec.xor_self

/-- One turn of the doubling loop of `galois_create_log_tables`, with `prim_poly[8]`
written without the bit that leaves the byte. -/
def double (b : Byte) : Byte :=
  BitVec.xor (BitVec.shiftLeft b 1) (if BitVec.msb b then 0x1D#8 else 0#8)

def bit (b : Byte) (i : Nat) : Bool := BitVec.getLsbD b i

/-- `galois_shift_multiply(x, y, 8)`: the multiples `y * 2^i` of `scratch`, summed over
the bits of `x`. -/
def galoisShiftMultiply (x y : Byte) : Byte :=
  (List.range 8).foldl (fun prod i => if bit x i then prod + double^[i] y else prod) 0

def galoisIlog (j : Nat) : Byte := double^[j] 1

/-- The position of `b` in the doubling sequence that starts at `c`, which is at `j`. -/
def logSearch (b : Byte) : Nat → Nat → Byte → Nat
  | 0, j, _ => j
  | fuel + 1, j, c => if c = b then j else logSearch b fuel (j + 1) (double c)

def galoisLog (b : Byte) : Nat := logSearch b 255 0 1

/-- The table entry `galois_mult_tables[8][x << 8 | y]`. -/
def galoisSingleMultiply (x y : Byte) : Byte :=
  if x = 0 ∨ y = 0 then 0 else galoisIlog (galoisLog x + galoisLog y)

theorem double_add (a b : Byte) : double (a + b) = double a + double b := by
  change BitVec.xor (BitVec.shiftLeft (BitVec.xor a b) 1) _ =
    BitVec.xor (BitVec.xor _ _) (BitVec.xor _ _)
  revert a b
  intro (a : BitVec 8) (b : BitVec 8)
  change ((a ^^^ b) <<< 1) ^^^ (if (a ^^^ b).msb then 0x1D#8 else 0#8) =
    ((a <<< 1) ^^^ (if a.msb then 0x1D#8 else 0#8)) ^^^
      ((b <<< 1) ^^^ (if b.msb then 0x1D#8 else 0#8))
  have hc : (if (a ^^^ b).msb then 0x1D#8 else 0#8) =
      (if a.msb then 0x1D#8 else 0#8) ^^^ (if b.msb then 0x1D#8 else 0#8) := by
    rw [BitVec.msb_xor]
    cases a.msb <;> cases b.msb <;> decide
  rw [hc, BitVec.shiftLeft_xor_distrib]
  ac_rfl

theorem double_iterate_add (i : Nat) (a b : Byte) :
    double^[i] (a + b) = double^[i] a + double^[i] b := by
  induction i generalizing a b with
  | zero => rfl
  | succ i ih => rw [Function.iterate_succ_apply, double_add, ih]; rfl

theorem double_iterate_zero (i : Nat) : double^[i] 0 = 0 :=
  Function.iterate_fixed (by decide) i

theorem galoisShiftMultiply_eq_sum (x y : Byte) :
    galoisShiftMultiply x y = ∑ i ∈ Finset.range 8, if bit x i then double^[i] y else 0 := by
  have h : ∀ (l : List Nat) (p : Byte),
      l.foldl (fun prod i => if bit x i then prod + double^[i] y else prod) p =
        p + (l.map (fun i => if bit x i then double^[i] y else 0)).sum := by
    intro l
    induction l with
    | nil => intro p; simp
    | cons i l ih =>
      intro p
      rw [List.foldl_cons, ih, List.map_cons, List.sum_cons]
      split <;> simp [add_assoc]
  rw [galoisShiftMultiply, h, zero_add]
  rfl

theorem bit_add (x x' : Byte) (i : Nat) : bit (x + x') i = (bit x i ^^ bit x' i) :=
  BitVec.getLsbD_xor

theorem shiftMultiply_add_left (x x' y : Byte) :
    galoisShiftMultiply (x + x') y = galoisShiftMultiply x y + galoisShiftMultiply x' y := by
  simp only [galoisShiftMultiply_eq_sum, ← Finset.sum_add_distrib]
  refine Finset.sum_congr rfl (fun i _ => ?_)
  rw [bit_add]
  cases bit x i <;> cases bit x' i <;> simp [add_self]

theorem shiftMultiply_add_right (x y y' : Byte) :
    galoisShiftMultiply x (y + y') = galoisShiftMultiply x y + galoisShiftMultiply x y' := by
  simp only [galoisShiftMultiply_eq_sum, ← Finset.sum_add_distrib]
  refine Finset.sum_congr rfl (fun i _ => ?_)
  cases bit x i <;> simp [double_iterate_add]

theorem shiftMultiply_zero_right (x : Byte) : galoisShiftMultiply x 0 = 0 := by
  simp [galoisShiftMultiply_eq_sum, double_iterate_zero]

/-- A property of all bytes can be checked on the 256 numbers below it. -/
theorem forall_byte {P : Byte → Prop} (h : ∀ n < 256, P (Byte.ofNat n)) (b : Byte) : P b := by
  have hb : Byte.ofNat (BitVec.toNat b) = b := BitVec.eq_of_toNat_eq (by
    simp [Byte.ofNat, Nat.mod_eq_of_lt (BitVec.isLt b)])
  rw [← hb]
  exact h _ (BitVec.isLt b)

theorem shiftMultiply_one_right (x : Byte) : galoisShiftMultiply x 1 = x :=
  forall_byte (P := fun x => galoisShiftMultiply x 1 = x) (by decide +kernel) x

theorem shiftMultiply_double (x y : Byte) :
    galoisShiftMultiply x (double y) = double (galoisShiftMultiply x y) := by
  have hs : ∀ f : Nat → Byte, double (∑ i ∈ Finset.range 8, f i) =
      ∑ i ∈ Finset.range 8, double (f i) := by
    intro f
    simp only [Finset.sum_range_succ, Finset.sum_range_zero, double_add]
    rfl
  rw [galoisShiftMultiply_eq_sum, galoisShiftMultiply_eq_sum, hs]
  refine Finset.sum_congr rfl (fun i _ => ?_)
  split
  · rw [← Function.iterate_succ_apply, Function.iterate_succ_apply']
  · rfl

theorem shiftMultiply_double_iterate (x y : Byte) (i : Nat) :
    galoisShiftMultiply x (double^[i] y) = double^[i] (galoisShiftMultiply x y) := by
  induction i generalizing y with
  | zero => rfl
  | succ i ih => rw [Function.iterate_succ_apply, ih, shiftMultiply_double]; rfl

theorem double_iterate_eq (x : Byte) (i : Nat) :
    double^[i] x = galoisShiftMultiply x (galoisIlog i) := by
  rw [galoisIlog, shiftMultiply_double_iterate, shiftMultiply_one_right]

theorem shiftMultiply_sum_right (x : Byte) (f : Nat → Byte) (n : Nat) :
    galoisShiftMultiply x (∑ i ∈ Finset.range n, f i) =
      ∑ i ∈ Finset.range n, galoisShiftMultiply x (f i) := by
  induction n with
  | zero => exact shiftMultiply_zero_right x
  | succ n ih => rw [Finset.sum_range_succ, shiftMultiply_add_right, ih, Finset.sum_range_succ]

/-- Both products are the sum of `2^i * 2^j` over the bits `i` of `x` and `j` of `y`. -/
theorem shiftMultiply_comm (x y : Byte) : galoisShiftMultiply x y = galoisShiftMultiply y x := by
  have hy : (∑ j ∈ Finset.range 8, if bit y j then galoisIlog j else 0) = y := by
    have h := shiftMultiply_one_right y
    rwa [galoisShiftMultiply_eq_sum] at h
  conv_lhs => rw [← hy, shiftMultiply_sum_right]
  rw [galoisShiftMultiply_eq_sum y x]
  refine Finset.sum_congr rfl (fun j _ => ?_)
  split
  · exact (double_iterate_eq x j).symm
  · exact shiftMultiply_zero_right x

theorem shiftMultiply_assoc (x y z : Byte) :
    galoisShiftMultiply (galoisShiftMultiply x y) z =
      galoisShiftMultiply x (galoisShiftMultiply y z) := by
  rw [shiftMultiply_comm _ z, galoisShiftMultiply_eq_sum x y, shiftMultiply_sum_right,
    galoisShiftMultiply_eq_sum x]
  refine Finset.sum_congr rfl (fun i _ => ?_)
  split
  · rw [shiftMultiply_double_iterate, shiftMultiply_comm z y]
  · exact shiftMultiply_zero_right z

theorem galoisIlog_add (i j : Nat) :
    galoisIlog (i + j) = galoisShiftMultiply (galoisIlog i) (galoisIlog j) := by
  rw [← double_iterate_eq, Nat.add_comm]
  exact Function.iterate_add_apply double j i 1

/-- The doubling sequence does not come back to `1` within `n` turns from `c`. -/
def avoidsOne : Nat → Byte → Bool
  | 0, _ => true
  | n + 1, c => c ≠ 1 && avoidsOne n (double c)

theorem avoidsOne_iterate (n : Nat) (c : Byte) (h : avoidsOne n c = true) (i : Nat) (hi : i < n) :
    double^[i] c ≠ 1 := by
  induction n generalizing c i with
  | zero => omega
  | succ n ih =>
    simp only [avoidsOne, Bool.and_eq_true, decide_eq_true_eq] at h
    cases i with
    | zero => exact h.1
    | succ i => exact ih (double c) h.2 i (by omega)

theorem double_injective : Function.Injective double := by
  intro a b h
  have hz : double (a + b) = 0 := by rw [double_add, h, add_self]
  have hab : a + b = 0 :=
    forall_byte (P := fun c => double c = 0 → c = 0) (by decide +kernel) (a + b) hz
  calc a = a + b + b := by rw [add_assoc, add_self, add_zero]
    _ = b := by rw [hab, zero_add]

theorem galoisIlog_injOn : Set.InjOn galoisIlog (Finset.range 255 : Finset Nat) := by
  have hne : ∀ d, 0 < d → d < 255 → galoisIlog d ≠ 1 := by
    intro d h0 hd
    obtain ⟨d, rfl⟩ := Nat.exists_eq_succ_of_ne_zero h0.ne'
    exact avoidsOne_iterate 254 (double 1) (by decide +kernel) d (by omega)
  have hlt : ∀ i j, i < j → j < 255 → galoisIlog i ≠ galoisIlog j := by
    intro i j hij hj he
    refine hne (j - i) (by omega) (by omega) ?_
    have hs : galoisIlog j = double^[i] (galoisIlog (j - i)) := by
      rw [galoisIlog, galoisIlog, ← Function.iterate_add_apply]
      congr 2
      omega
    exact (double_injective.iterate i (he.trans hs)).symm
  intro i hi j hj he
  simp only [Finset.coe_range, Set.mem_Iio] at hi hj
  rcases lt_trichotomy i j with h | h | h
  · exact absurd he (hlt i j h hj)
  · exact h
  · exact absurd he.symm (hlt j i h hi)

theorem ofNat_bijective : Function.Bijective (fun n : Fin 256 => Byte.ofNat n) :=
  ⟨fun a b h => Fin.ext (by
    have := congrArg Byte.toNat h
    simpa [Byte.ofNat, Byte.toNat, Nat.mod_eq_of_lt] using this),
   forall_byte (fun n hn => ⟨⟨n, hn⟩, rfl⟩)⟩

instance : Fintype Byte := Fintype.ofBijective _ ofNat_bijective

theorem card_byte : Fintype.card Byte = 256 :=
  (Fintype.card_of_bijective ofNat_bijective).symm.trans (Fintype.card_fin 256)

theorem exists_galoisIlog (b : Byte) (hb : b ≠ 0) : ∃ j < 255, galoisIlog j = b := by
  have hz : ∀ j, galoisIlog j ≠ 0 := fun j h => by
    have := double_injective.iterate j (h.trans (double_iterate_zero j).symm)
    exact absurd this (by decide)
  have hsub : (Finset.range 255).image galoisIlog ⊆ Finset.univ.erase 0 := by
    intro c hc
    obtain ⟨j, _, rfl⟩ := Finset.mem_image.mp hc
    exact Finset.mem_erase.mpr ⟨hz j, Finset.mem_univ _⟩
  have hcard : (Finset.univ.erase (0 : Byte)).card ≤ ((Finset.range 255).image galoisIlog).card := by
    rw [Finset.card_image_of_injOn galoisIlog_injOn, Finset.card_erase_of_mem (Finset.mem_univ _),
      Finset.card_univ, card_byte, Finset.card_range]
  have hm : b ∈ (Finset.range 255).image galoisIlog := by
    rw [Finset.eq_of_subset_of_card_le hsub hcard]
    exact Finset.mem_erase.mpr ⟨hb, Finset.mem_univ _⟩
  obtain ⟨j, hj, he⟩ := Finset.mem_image.mp hm
  exact ⟨j, Finset.mem_range.mp hj, he⟩

theorem logSearch_spec (b : Byte) (fuel j : Nat) (c : Byte) (i : Nat) (hi : i < fuel)
    (hb : double^[i] c = b) : ∃ m, logSearch b fuel j c = j + m ∧ double^[m] c = b := by
  induction fuel generalizing j c i with
  | zero => omega
  | succ fuel ih =>
    by_cases hc : c = b
    · exact ⟨0, by simp [logSearch, hc], hc⟩
    · cases i with
      | zero => exact absurd hb hc
      | succ i =>
        obtain ⟨m, hm, hd⟩ := ih (j + 1) (double c) i (by omega) hb
        exact ⟨m + 1, by simp only [logSearch, hc, if_false, hm]; omega, hd⟩

theorem galoisIlog_galoisLog (b : Byte) (hb : b ≠ 0) : galoisIlog (galoisLog b) = b := by
  obtain ⟨i, hi, he⟩ := exists_galoisIlog b hb
  obtain ⟨m, hm, hd⟩ := logSearch_spec b 255 0 1 i hi he
  rw [galoisLog, hm, Nat.zero_add]
  exact hd

theorem galoisLog_le (b : Byte) : galoisLog b ≤ 255 := by
  have h : ∀ fuel j c, logSearch b fuel j c ≤ j + fuel := by
    intro fuel
    induction fuel with
    | zero => intro j c; simp [logSearch]
    | succ fuel ih =>
      intro j c
      have := ih (j + 1) (double c)
      simp only [logSearch]
      split <;> omega
  exact (h 255 0 1).trans (by simp)

instance : Mul Byte := ⟨galoisShiftMultiply⟩

/-- `galois_single_divide(1, x, 8)`. -/
instance : Inv Byte := ⟨fun x => if x = 0 then 0 else galoisIlog (255 - galoisLog x)⟩

theorem mul_inv_of_ne_zero (x : Byte) (hx : x ≠ 0) : x * x⁻¹ = 1 := by
  have hi : x⁻¹ = galoisIlog (255 - galoisLog x) := if_neg hx
  have hl := galoisLog_le x
  calc x * x⁻¹ = galoisIlog (galoisLog x) * galoisIlog (255 - galoisLog x) := by
        rw [hi, galoisIlog_galoisLog x hx]
    _ = galoisIlog 255 := by
        rw [show (255 : Nat) = galoisLog x + (255 - galoisLog x) by omega, galoisIlog_add]
        simp only [Nat.add_sub_cancel_left]
        rfl
    _ = 1 := by decide +kernel

instance : Field Byte where
  mul_assoc := shiftMultiply_assoc
  mul_comm := shiftMultiply_comm
  one_mul x := (shiftMultiply_comm 1 x).trans (shiftMultiply_one_right x)
  mul_one := shiftMultiply_one_right
  left_distrib := shiftMultiply_add_right
  right_distrib := shiftMultiply_add_left
  zero_mul x := (shiftMultiply_comm 0 x).trans (shiftMultiply_zero_right x)
  mul_zero := shiftMultiply_zero_right
  exists_pair_ne := ⟨0, 1, by decide⟩
  mul_inv_cancel := mul_inv_of_ne_zero
  inv_zero := if_pos rfl
  neg_add_cancel := add_self
  zsmul := zsmulRec
  nnqsmul := _
  nnqsmul_def := fun _ _ => rfl
  qsmul := _
  qsmul_def := fun _ _ => rfl

instance : CharP Byte 2 := CharTwo.of_one_ne_zero_of_two_eq_zero one_ne_zero (by
  rw [← one_add_one_eq_two]; exact add_self 1)

theorem galoisSingleMultiply_eq (x y : Byte) : galoisSingleMultiply x y = x * y := by
  unfold galoisSingleMultiply
  split
  · next h =>
    rcases h with rfl | rfl
    · rw [zero_mul]
    · rw [mul_zero]
  · next h =>
    push Not at h
    rw [galoisIlog_add, galoisIlog_galoisLog x h.1, galoisIlog_galoisLog y h.2]
    rfl

end OptLrc.Galois
