import OptLrc.Stripe

namespace OptLrc.Split

open OptLrc.Galois OptLrc.Memory OptLrc.Jerasure OptLrc.Encoder OptLrc.Stripe

/-- Data block `i` of a value: its bytes, then zeros. -/
def dataBlock (blockSize : Nat) (value : Block) (i : Nat) : Block :=
  (value.drop (i * blockSize)).take blockSize ++
    zeroBlock (blockSize - ((value.drop (i * blockSize)).take blockSize).length)

theorem length_dataBlock (blockSize : Nat) (value : Block) (i : Nat) :
    (dataBlock blockSize value i).length = blockSize := by
  simp only [dataBlock, List.length_append, List.length_take, length_zeroBlock]
  omega

theorem fillStep_eq (blockSize : Nat) (value : Block) (i : Nat) (ptrs : Cells Block)
    (hp : ptrs[i]? = some (some (zeroBlock blockSize))) :
    fillStep blockSize value (value.length - i * blockSize, ptrs) i =
      .ok (value.length - (i + 1) * blockSize, ptrs.set i (some (dataBlock blockSize value i))) := by
  have hi : i < ptrs.length := (List.getElem?_eq_some_iff.mp hp).1
  have e : (i + 1) * blockSize = i * blockSize + blockSize := Nat.succ_mul _ _
  have hlen : (if blockSize ≤ value.length - i * blockSize then blockSize
      else value.length - i * blockSize) = ((value.drop (i * blockSize)).take blockSize).length := by
    simp only [List.length_take, List.length_drop]
    split <;> omega
  have hread : readRange value (i * blockSize) ((value.drop (i * blockSize)).take blockSize).length =
      .ok ((value.drop (i * blockSize)).take blockSize) := by
    unfold readRange
    rw [if_pos]
    · congr 1
      simp [List.take_eq_take_iff]
    · simp only [List.length_take, List.length_drop]
      omega
  have hwrite : writeRange (zeroBlock blockSize) 0 ((value.drop (i * blockSize)).take blockSize) =
      .ok (dataBlock blockSize value i) := by
    unfold writeRange
    rw [if_pos]
    · simp only [List.take_zero, List.nil_append, Nat.zero_add, dataBlock, zeroBlock, List.drop_replicate]
    · right
      simp only [List.length_take, length_zeroBlock]
      omega
  unfold fillStep
  simp only [hlen, hread, ok_bind, Cells.read_eq hp, hwrite, Cells.write_eq _ hi, pure_eq_ok]
  congr 2
  simp only [List.length_take, List.length_drop]
  omega

theorem fillDataPtrs_eq (size blockSize : Nat) (value : Block) :
    fillDataPtrs size blockSize value = .ok (value.length - size * blockSize,
      (List.range size).map (fun i => some (dataBlock blockSize value i))) := by
  have hrun : ∀ m ≤ size, (List.range m).foldlM (fillStep blockSize value)
      (value.length, Cells.filled size (zeroBlock blockSize)) =
      .ok (value.length - m * blockSize, (List.range m).map (fun i => some (dataBlock blockSize value i)) ++
        Cells.filled (size - m) (zeroBlock blockSize)) := by
    intro m hm
    induction m with
    | zero => simp
    | succ m ih =>
      obtain ⟨d, hd⟩ : ∃ d, size - m = d + 1 := ⟨size - m - 1, by omega⟩
      have hd' : size - (m + 1) = d := by omega
      rw [List.range_succ, List.foldlM_append, ih (by omega), ok_bind, List.foldlM_cons,
        fillStep_eq blockSize value m _ (by
          rw [List.getElem?_append_right (by simp)]
          simp [Cells.filled, hd]), ok_bind, List.foldlM_nil, List.set_append_right _ _ (by simp)]
      simp [Cells.filled, hd, hd', List.replicate_succ]
  have := hrun size le_rfl
  simpa [fillDataPtrs, Cells.filled] using this

section BlockSize

variable (valueLength : Nat) {k : Nat}

/-- The block size is the value's share of words, rounded up. -/
theorem determineBlockSizeRs_eq (hk : 1 ≤ k) :
    determineBlockSizeRs valueLength k = 8 * ((valueLength + (k * 8 - 1)) / (k * 8)) := by
  have hd := Nat.div_add_mod valueLength (k * 8)
  have hpos : 0 < k * 8 := by omega
  have hm := Nat.mod_lt valueLength hpos
  generalize hq : valueLength / (k * 8) = q at hd
  unfold determineBlockSizeRs
  simp only
  split
  · next h0 =>
    rw [h0, Nat.add_zero] at hd
    have e1 : valueLength / k = 8 * q := by
      rw [← hd, Nat.mul_assoc, Nat.mul_div_cancel_left _ (by omega)]
    have e2 : (valueLength + (k * 8 - 1)) / (k * 8) = q := by
      rw [← hd, Nat.mul_add_div hpos, Nat.div_eq_of_lt (by omega), Nat.add_zero]
    rw [e1, e2]
  · next h0 =>
    have e1 : valueLength + k * 8 - valueLength % (k * 8) = k * (8 * (q + 1)) := by
      have : k * (8 * (q + 1)) = k * 8 * q + k * 8 := by ring
      omega
    have e2 : (valueLength + (k * 8 - 1)) / (k * 8) = q + 1 := by
      have : valueLength + (k * 8 - 1) = k * 8 * (q + 1) + (valueLength % (k * 8) - 1) := by
        have : k * 8 * (q + 1) = k * 8 * q + k * 8 := by ring
        omega
      rw [this, Nat.mul_add_div hpos, Nat.div_eq_of_lt (by omega), Nat.add_zero]
    rw [e1, e2, Nat.mul_div_cancel_left _ (by omega)]

theorem dvd_determineBlockSizeRs (hk : 1 ≤ k) : 8 ∣ determineBlockSizeRs valueLength k := by
  rw [determineBlockSizeRs_eq valueLength hk]
  exact Nat.dvd_mul_right 8 _

theorem le_mul_determineBlockSizeRs (hk : 1 ≤ k) :
    valueLength ≤ k * determineBlockSizeRs valueLength k := by
  rw [determineBlockSizeRs_eq valueLength hk, ← Nat.mul_assoc]
  have hd := Nat.div_add_mod (valueLength + (k * 8 - 1)) (k * 8)
  have hm := Nat.mod_lt (valueLength + (k * 8 - 1)) (show 0 < k * 8 by omega)
  omega

end BlockSize

section Lossless

/-- The block size on the machine: `size_t` lengths, a `uint32_t` product and an `int` rest. -/
def determineBlockSizeRs64 (valueLength : BitVec 64) (k : BitVec 32) : BitVec 64 :=
  let words := (k * 8#32).setWidth 64
  let mod := (valueLength % words).setWidth 32
  if mod = 0#32 then valueLength / k.setWidth 64
  else (valueLength + words - mod.signExtend 64) / k.setWidth 64

theorem toNat_determineBlockSizeRs64 {valueLength k : Nat} (hk : 1 ≤ k) (hk8 : k * 8 < 2 ^ 31)
    (hv : valueLength + 8 * k < 2 ^ 64) :
    (determineBlockSizeRs64 (BitVec.ofNat 64 valueLength) (BitVec.ofNat 32 k)).toNat =
      determineBlockSizeRs valueLength k := by
  have hlen : (BitVec.ofNat 64 valueLength).toNat = valueLength := by
    rw [BitVec.toNat_ofNat, Nat.mod_eq_of_lt (by omega)]
  have hk64 : ((BitVec.ofNat 32 k).setWidth 64).toNat = k := by
    rw [BitVec.toNat_setWidth, BitVec.toNat_ofNat]
    omega
  have hwords : ((BitVec.ofNat 32 k * 8#32).setWidth 64).toNat = k * 8 := by
    rw [BitVec.toNat_setWidth, BitVec.toNat_mul, BitVec.toNat_ofNat, BitVec.toNat_ofNat]
    omega
  have hlt := Nat.mod_lt valueLength (show 0 < k * 8 by omega)
  have hmod : ((BitVec.ofNat 64 valueLength % (BitVec.ofNat 32 k * 8#32).setWidth 64).setWidth 32).toNat =
      valueLength % (k * 8) := by
    rw [BitVec.toNat_setWidth, BitVec.toNat_umod, hlen, hwords, Nat.mod_eq_of_lt (by omega)]
  unfold determineBlockSizeRs64 determineBlockSizeRs
  simp only
  generalize (BitVec.ofNat 64 valueLength % (BitVec.ofNat 32 k * 8#32).setWidth 64).setWidth 32 = mod at hmod ⊢
  have hzero : mod = 0#32 ↔ valueLength % (k * 8) = 0 := by
    rw [← hmod, BitVec.toNat_eq, BitVec.toNat_ofNat, Nat.zero_mod]
  by_cases h0 : valueLength % (k * 8) = 0
  · rw [if_pos (hzero.mpr h0), if_pos h0, BitVec.toNat_udiv, hlen, hk64]
  · rw [if_neg (hzero.not.mpr h0), if_neg h0, BitVec.toNat_udiv, hk64]
    have hmsb : mod.msb = false := BitVec.msb_eq_false_iff_two_mul_lt.mpr (by omega)
    rw [BitVec.signExtend_eq_setWidth_of_msb_false hmsb, BitVec.toNat_sub, BitVec.toNat_add, hlen, hwords,
      BitVec.toNat_setWidth, hmod]
    congr 1
    omega

theorem flatten_dataBlock (blockSize : Nat) (value : Block) (m : Nat) :
    ((List.range m).map (dataBlock blockSize value)).flatten =
      value.take (m * blockSize) ++ zeroBlock (m * blockSize - value.length) := by
  induction m with
  | zero => simp [zeroBlock]
  | succ m ih =>
    have e : (m + 1) * blockSize = m * blockSize + blockSize := Nat.succ_mul _ _
    rw [List.range_succ, List.map_append, List.flatten_append, ih, e, List.take_add]
    rcases Nat.le_total (m * blockSize) value.length with h | h
    · have hlen : ((value.drop (m * blockSize)).take blockSize).length =
          min blockSize (value.length - m * blockSize) := by
        rw [List.length_take, List.length_drop]
      simp only [List.map_cons, List.map_nil, List.flatten_cons, List.flatten_nil, List.append_nil, dataBlock, hlen,
        show m * blockSize - value.length = 0 by omega, zeroBlock, List.replicate_zero, List.append_assoc]
      congr 3
      omega
    · -- The block lies beyond the end of the value.
      have hdrop : value.drop (m * blockSize) = [] := List.drop_eq_nil_of_le h
      simp only [List.map_cons, List.map_nil, List.flatten_cons, List.flatten_nil, List.append_nil, dataBlock, hdrop,
        List.take_nil, List.length_nil, List.nil_append, List.append_assoc, zeroBlock, ← List.replicate_add]
      congr 2
      omega

theorem isLeast_determineBlockSizeRs (valueLength : Nat) {k : Nat} (hk : 1 ≤ k) :
    IsLeast {size | 8 ∣ size ∧ valueLength ≤ k * size} (determineBlockSizeRs valueLength k) := by
  refine ⟨⟨dvd_determineBlockSizeRs valueLength hk, le_mul_determineBlockSizeRs valueLength hk⟩, ?_⟩
  rintro _ ⟨⟨q, rfl⟩, hq⟩
  rw [determineBlockSizeRs_eq valueLength hk]
  apply Nat.mul_le_mul_left
  rw [← Nat.lt_add_one_iff, Nat.div_lt_iff_lt_mul (by omega)]
  have : (q + 1) * (k * 8) = k * (8 * q) + k * 8 := by ring
  omega

end Lossless

end OptLrc.Split
