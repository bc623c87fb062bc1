import OptLrc.Split

namespace OptLrc.LastBlock

open OptLrc.Galois OptLrc.Memory OptLrc.Jerasure OptLrc.Encoder OptLrc.Split

/-- `last_data_request_size`, as the set, the get and the repair compute it. -/
def lastDataRequestSize (valueLength k : Nat) : Nat :=
  sizeSub valueLength (determineBlockSizeRs valueLength k * (k - 1))

/-- The size arithmetic of the split does not wrap, and the copies of
`last_data_request_size` bytes stay inside blocks of `block_size` bytes. -/
structure SplitFits (value : Block) (k : Nat) : Prop where
  sum : value.length + k * 8 < 2 ^ 64
  noWrap : determineBlockSizeRs value.length k * (k - 1) ≤ value.length
  size : lastDataRequestSize value.length k =
    value.length - determineBlockSizeRs value.length k * (k - 1)
  le : lastDataRequestSize value.length k ≤ determineBlockSizeRs value.length k
  request : ∃ rest ptrs block bytes,
    fillDataPtrs k (determineBlockSizeRs value.length k) value = .ok (rest, ptrs) ∧
    ptrs.read (k - 1) = .ok block ∧
    readRange block 0 (lastDataRequestSize value.length k) = .ok bytes
  stored : ∀ block : Block, block.length = determineBlockSizeRs value.length k →
    ∃ bytes, readRange block 0 (lastDataRequestSize value.length k) = .ok bytes

theorem determineBlockSizeRs_quotient (valueLength : Nat) {k : Nat} (hk : 1 ≤ k) :
    determineBlockSizeRs valueLength k = 8 * (valueLength / (8 * k)) +
      if valueLength % (8 * k) = 0 then 0 else 8 := by
  have hd := Nat.div_add_mod valueLength (8 * k)
  have hm := Nat.mod_lt valueLength (show 0 < 8 * k by omega)
  rw [determineBlockSizeRs_eq valueLength hk, Nat.mul_comm k 8]
  generalize valueLength / (8 * k) = q at hd
  generalize valueLength % (8 * k) = m at hd hm
  have hsum : valueLength + (8 * k - 1) = 8 * k * q + (m + (8 * k - 1)) := by omega
  rw [hsum, Nat.mul_add_div (by omega)]
  by_cases h0 : m = 0
  · rw [if_pos h0, h0, Nat.zero_add, Nat.div_eq_of_lt (by omega), Nat.add_zero, Nat.add_zero]
  · have hone : (m + (8 * k - 1)) / (8 * k) = 1 :=
      Nat.div_eq_of_lt_le (by omega) (by omega)
    rw [if_neg h0, hone, Nat.mul_add]

/-- The first `k - 1` blocks take no more than the value, but for short remainders. -/
theorem blocks_le_iff (valueLength : Nat) {k : Nat} (hk : 1 ≤ k) :
    determineBlockSizeRs valueLength k * (k - 1) ≤ valueLength ↔
      valueLength % (8 * k) = 0 ∨
        8 * (k - 1) ≤ 8 * (valueLength / (8 * k)) + valueLength % (8 * k) := by
  have hd := Nat.div_add_mod valueLength (8 * k)
  rw [determineBlockSizeRs_quotient valueLength hk]
  generalize valueLength / (8 * k) = q at hd
  generalize valueLength % (8 * k) = m at hd
  obtain ⟨j, rfl⟩ : ∃ j, k = j + 1 := ⟨k - 1, by omega⟩
  have hq : 8 * (j + 1) * q = 8 * (q * j) + 8 * q := by ring
  rw [Nat.add_sub_cancel]
  by_cases h0 : m = 0
  · rw [if_pos h0, Nat.add_zero]
    have : 8 * q * j = 8 * (q * j) := by ring
    omega
  · rw [if_neg h0]
    have : (8 * q + 8) * j = 8 * (q * j) + 8 * j := by ring
    omega

theorem sub_blocks_le (valueLength : Nat) {k : Nat} (hk : 1 ≤ k) :
    valueLength - determineBlockSizeRs valueLength k * (k - 1) ≤ determineBlockSizeRs valueLength k := by
  have hle := le_mul_determineBlockSizeRs valueLength hk
  obtain ⟨j, rfl⟩ : ∃ j, k = j + 1 := ⟨k - 1, by omega⟩
  rw [Nat.add_mul, Nat.one_mul, Nat.mul_comm] at hle
  rw [Nat.add_sub_cancel]
  omega

theorem readRange_last {block : Block} {size : Nat} (h : size ≤ block.length) :
    readRange block 0 size = .ok (block.take size) := by
  rw [readRange, if_pos (Or.inr (by omega)), List.drop_zero]

/-- The split is sound exactly when the value fills whole words of every block, or the words
before its remainder and the remainder reach into the last block. -/
theorem splitFits_iff (value : Block) (k : Nat) (hk : 1 ≤ k) (hk8 : k * 8 < 2 ^ 31)
    (hv : value.length < 2 ^ 63) :
    SplitFits value k ↔ value.length % (8 * k) = 0 ∨
      8 * (k - 1) ≤ 8 * (value.length / (8 * k)) + value.length % (8 * k) := by
  rw [← blocks_le_iff value.length hk]
  constructor
  · intro h
    exact h.noWrap
  · intro hle
    have hsize : lastDataRequestSize value.length k =
        value.length - determineBlockSizeRs value.length k * (k - 1) := sizeSub_eq (by omega) hle
    have hlast : lastDataRequestSize value.length k ≤ determineBlockSizeRs value.length k := by
      rw [hsize]
      exact sub_blocks_le value.length hk
    have hstored : ∀ block : Block, block.length = determineBlockSizeRs value.length k →
        ∃ bytes, readRange block 0 (lastDataRequestSize value.length k) = .ok bytes := by
      intro block hblock
      exact ⟨_, readRange_last (by omega)⟩
    refine ⟨by omega, hle, hsize, hlast, ?_, hstored⟩
    obtain ⟨bytes, hbytes⟩ := hstored (dataBlock (determineBlockSizeRs value.length k) value (k - 1))
      (length_dataBlock _ _ _)
    refine ⟨_, _, _, bytes, fillDataPtrs_eq k _ value, ?_, hbytes⟩
    apply Cells.read_eq
    rw [List.getElem?_map, List.getElem?_range (by omega)]
    rfl

theorem splitFits_sixteen : SplitFits (List.replicate 16 0) 3 :=
  (splitFits_iff (List.replicate 16 0) 3 (by decide) (by decide) (by decide)).mpr (by decide)

/-- One byte over three blocks of eight: the first two blocks alone are longer than the value. -/
theorem not_splitFits_one : ¬ SplitFits [1] 3 := by
  intro h
  exact absurd h.noWrap (by decide)

end OptLrc.LastBlock
