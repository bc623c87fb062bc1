import OptLrc.Unreadable

namespace OptLrc.Losses

open OptLrc.Galois OptLrc.Memory OptLrc.Jerasure OptLrc.Encoder OptLrc.Stripe OptLrc.Split
open OptLrc.Process OptLrc.Memcached OptLrc.Exchange OptLrc.Storage OptLrc.Retrieval OptLrc.Sync
open OptLrc.Wire OptLrc.Core OptLrc.Fetch OptLrc.Lookup OptLrc.Stored OptLrc.Writes OptLrc.Updates
open OptLrc.Keys OptLrc.Contents OptLrc.Arrival OptLrc.Decode OptLrc.Rebuild OptLrc.Reads OptLrc.Gets
open OptLrc.Gather OptLrc.Degraded OptLrc.SecondFetch OptLrc.Unreadable

variable {V : CodingMatrix} {n k r j : Nat} {value : Block} {key : Key}

section Patch

/-- The value with other bytes in the place of its data block `j`. -/
def patched (k : Nat) (value : Block) (j : Nat) (bytes : Block) : Block :=
  value.take (j * determineBlockSizeRs value.length k) ++ bytes ++
    value.drop (j * determineBlockSizeRs value.length k + bytes.length)

theorem length_piece (hval : Splits k value) (hj : j < k) : (piece k value j).length = storedSize k value j := by
  have hreach := hval.reaches
  have hle := lastSize_le (show 1 ≤ k by omega) value
  rw [piece, List.length_take, List.length_drop]
  unfold storedSize
  split
  · next h =>
    rw [h, lastSize, Nat.mul_comm]
    omega
  · have hmul : (j + 1) * determineBlockSizeRs value.length k ≤ (k - 1) * determineBlockSizeRs value.length k :=
      Nat.mul_le_mul_right _ (by omega)
    rw [Nat.add_one_mul] at hmul
    rw [Nat.mul_comm] at hreach
    omega

variable {bytes : Block} (hval : Splits k value) (hj : j < k) (hlen : bytes.length = storedSize k value j)
include hval hj hlen

theorem patched_end : j * determineBlockSizeRs value.length k + bytes.length ≤ value.length := by
  have hpiece := length_piece hval hj
  rw [← hlen, piece, List.length_take, List.length_drop] at hpiece
  have hreach := hval.reaches
  have hmul : j * determineBlockSizeRs value.length k ≤ (k - 1) * determineBlockSizeRs value.length k :=
    Nat.mul_le_mul_right _ (by omega)
  rw [Nat.mul_comm] at hreach
  omega

theorem length_patched : (patched k value j bytes).length = value.length := by
  have := patched_end hval hj hlen
  simp only [patched, List.length_append, List.length_take, List.length_drop]
  omega

theorem getElem?_patched (t : Nat) : (patched k value j bytes)[t]? =
    if j * determineBlockSizeRs value.length k ≤ t ∧
      t < j * determineBlockSizeRs value.length k + bytes.length then
        bytes[t - j * determineBlockSizeRs value.length k]? else value[t]? := by
  have hend := patched_end hval hj hlen
  have htake : (value.take (j * determineBlockSizeRs value.length k)).length =
      j * determineBlockSizeRs value.length k := by
    rw [List.length_take]
    omega
  unfold patched
  rcases Nat.lt_or_ge t (j * determineBlockSizeRs value.length k) with h | h
  · rw [if_neg (by omega), List.append_assoc, List.getElem?_append_left (by omega), List.getElem?_take_of_lt h]
  · by_cases h' : t < j * determineBlockSizeRs value.length k + bytes.length
    · rw [if_pos ⟨h, h'⟩, List.getElem?_append_left (by rw [List.length_append]; omega),
        List.getElem?_append_right (by omega), htake]
    · rw [if_neg (by omega), List.getElem?_append_right (by rw [List.length_append]; omega),
        List.length_append, htake, List.getElem?_drop]
      congr 1
      omega

theorem piece_patched {s : Nat} (hs : s < k) :
    piece k (patched k value j bytes) s = if s = j then bytes else piece k value s := by
  have hend := patched_end hval hj hlen
  have hsize := storedSize_le (show 1 ≤ k by omega) value j
  have hsize' : j ≠ k - 1 → bytes.length = determineBlockSizeRs value.length k := fun h => by
    rw [hlen, storedSize, if_neg h]
  refine List.ext_getElem? (fun t => ?_)
  have hget : ∀ w : Block, w.length = value.length → (piece k w s)[t]? =
      if t < determineBlockSizeRs value.length k then w[s * determineBlockSizeRs value.length k + t]?
        else none := by
    intro w hw
    rw [piece, hw, List.getElem?_take, List.getElem?_drop]
  rw [hget _ (length_patched hval hj hlen), getElem?_patched hval hj hlen]
  by_cases hsj : s = j
  · subst hsj
    rw [if_pos rfl, Nat.add_sub_cancel_left]
    split
    · split
      · rfl
      · next h =>
        rw [List.getElem?_eq_none (show bytes.length ≤ t by omega)]
        refine List.getElem?_eq_none ?_
        by_cases hlast : s = k - 1
        · have hpiece := length_piece hval hj
          rw [← hlen, piece, List.length_take, List.length_drop] at hpiece
          omega
        · have := hsize' hlast
          omega
    · rw [List.getElem?_eq_none (by omega)]
  · rw [if_neg hsj, hget value rfl]
    split
    · next ht =>
      rw [if_neg]
      intro h
      rcases Nat.lt_or_gt_of_ne hsj with hlt | hgt
      · have := Nat.mul_le_mul_right (determineBlockSizeRs value.length k) (show s + 1 ≤ j from hlt)
        rw [Nat.add_one_mul] at this
        omega
      · have := Nat.mul_le_mul_right (determineBlockSizeRs value.length k) (show j + 1 ≤ s from hgt)
        rw [Nat.add_one_mul] at this
        omega
    · rfl

theorem patched_eq_iff : patched k value j bytes = value ↔ bytes = piece k value j := by
  constructor
  · intro h
    have := piece_patched hval hj hlen hj
    rw [h, if_pos rfl] at this
    exact this.symm
  · intro h
    have hpiece := length_piece hval hj
    refine List.ext_getElem? (fun t => ?_)
    rw [getElem?_patched hval hj hlen]
    split
    · next ht =>
      rw [h] at ht ⊢
      rw [piece, List.getElem?_take_of_lt, List.getElem?_drop, Nat.add_sub_cancel' ht.1]
      rw [piece, List.length_take] at ht
      omega
    · rfl

end Patch

section Decoded

theorem take_eq_take_iff {a b : Block} {m : Nat} (ha : m ≤ a.length) (hb : m ≤ b.length) :
    a.take m = b.take m ↔ ∀ t < m, a.getD t 0 = b.getD t 0 := by
  constructor
  · intro h t ht
    have := congrArg (fun l : Block => l.getD t 0) h
    simpa only [List.getD_eq_getElem?_getD, List.getElem?_take_of_lt ht] using this
  · intro h
    refine List.ext_getElem? (fun t => ?_)
    by_cases ht : t < m
    · have := h t ht
      rw [List.getD_eq_getElem?_getD, List.getD_eq_getElem?_getD, List.getElem?_eq_getElem (by omega),
        List.getElem?_eq_getElem (by omega), Option.getD_some, Option.getD_some] at this
      rw [List.getElem?_take_of_lt ht, List.getElem?_take_of_lt ht, List.getElem?_eq_getElem (by omega),
        List.getElem?_eq_getElem (by omega), this]
    · rw [List.getElem?_eq_none (by rw [List.length_take]; omega),
        List.getElem?_eq_none (by rw [List.length_take]; omega)]

theorem piece_eq_take (hv : Valid n k r) (hval : Splits k value) (hj : j < k) :
    piece k value j = (fullBlock V n k r value (position r j)).take (storedSize k value j) := by
  rw [fullBlock_data hv value hj]
  unfold storedSize
  split
  · next h =>
    have hle := lastSize_le hv.k_pos value
    rw [lastSize, h, lastBlock_eq hv.k_pos, piece, List.take_of_length_le]
    rw [List.length_drop, Nat.mul_comm]
    exact hle
  · rw [← dataBlock_eq_piece hval (by omega), List.take_of_length_le]
    rw [length_dataBlock]

theorem storedBlock_eq_piece (hv : Valid n k r) (hval : Splits k value) (hj : j < k) :
    storedBlock V n k r value (position r j) = piece k value j := by
  rw [piece_eq_take (V := V) hv hval hj]
  unfold storedBlock storedSize
  simp only [position_eq_last hv]
  split
  · rfl
  · rw [List.take_of_length_le (by rw [length_fullBlock])]

theorem length_blockSum (V : CodingMatrix) (n k r : Nat) (value : Block) (pos : Nat → Nat) (m : Nat) :
    (blockSum V n k r value pos m).length = determineBlockSizeRs value.length k :=
  length_combine _ _ _ _ (fun _ _ => length_fullBlock _ _ _ _ _ _)

/-- The blocks that the second fetch asks for are as good as the rest of the group: their sum
agrees on the bytes of the lost block. -/
def Agrees (V : CodingMatrix) (n k r : Nat) (value : Block) (j : Nat) : Prop :=
  (blockSum V n k r value (askedPosition r j) (askedCount n k r j)).take (storedSize k value j) =
    (blockSum V n k r value (restPosition k r j) (askedCount n k r j)).take (storedSize k value j)

/-- The bytes that the degraded path takes for data block `j`. -/
def decodedBytes (V : CodingMatrix) (n k r : Nat) (value : Block) (j : Nat) : Block :=
  (decodedBlock V n k r value j).take (storedSize k value j)

theorem length_decodedBytes (V : CodingMatrix) (n r : Nat) (value : Block) (j : Nat) (hk : 1 ≤ k) :
    (decodedBytes V n k r value j).length = storedSize k value j := by
  rw [decodedBytes, List.length_take, length_decodedBlock]
  exact Nat.min_eq_left (storedSize_le hk value j)

theorem decodedBytes_eq_iff (hv : Valid n k r) (hval : Splits k value) (hj : j < k) :
    decodedBytes V n k r value j = piece k value j ↔ Agrees V n k r value j := by
  have hsize := storedSize_le hv.k_pos value j
  rw [decodedBytes, piece_eq_take (V := V) hv hval hj, Agrees,
    take_eq_take_iff (by rw [length_decodedBlock]; exact hsize) (by rw [length_fullBlock]; exact hsize),
    take_eq_take_iff (by rw [length_blockSum]; exact hsize) (by rw [length_blockSum]; exact hsize)]
  refine forall₂_congr (fun t _ => ?_)
  rw [getD_decodedBlock hv hj, add_eq_left, CharTwo.add_eq_zero, eq_comm]

end Decoded

/-- With one data block lost, it is the one that counts as failed. -/
theorem failIndex_lost {done : List Nat} {st : Fetched} (hst : DataState k value done st) (hj : j < k)
    (hdone : ∀ s < k, s ∈ done ↔ s ≠ j) (n : Nat) : failIndex n st.nodeFail = j := by
  have hfail : ∀ s < k, (st.nodeFail[s]? = some true ↔ s = j) := by
    intro s hs
    rw [hst.failed]
    simp [hs, hdone s hs]
  have hlen : st.nodeFail.length = k := by rw [hst.failed, List.length_map, List.length_range]
  have hrun : ∀ m ≤ k, (List.range m).foldl (fun fail i => if st.nodeFail[i]? = some true then i else fail)
      n = if j < m then j else n := by
    intro m hm
    induction m with
    | zero => rfl
    | succ m ih =>
      rw [List.range_succ, List.foldl_append, ih (by omega), List.foldl_cons, List.foldl_nil]
      simp only [hfail m (by omega)]
      by_cases h : m = j
      · rw [if_pos h, if_pos (by omega), h]
      · rw [if_neg h]
        congr 1
        exact propext ⟨fun h => by omega, fun h => by omega⟩
  rw [failIndex, hlen, hrun k le_rfl, if_pos hj]

/-- What the buffer of the result holds after the degraded path. -/
theorem reassemble_patched (hk : 1 ≤ k) (hval : Splits k value) (hj : j < k) {done : List Nat} {st : Fetched}
    (hst : DataState k value done st) (hdone : ∀ s < k, s ∈ done ↔ s ≠ j) {block : Block}
    (hlen : block.length = determineBlockSizeRs value.length k) (flags : Option Nat) :
    reassemble k value.length { st with subValues := st.subValues.set j (some block), flags := flags } =
      .ok ((patched k value j (block.take (storedSize k value j))).map some) := by
  have hsize := storedSize_le hk value j
  have hbytes : (block.take (storedSize k value j)).length = storedSize k value j := by
    rw [List.length_take]
    omega
  have hblock : st.blockSize = determineBlockSizeRs value.length k := by
    rw [hst.blockSize, fetchedSize_lost hj (fun h => (hdone j hj).mp h rfl)]
  have hpatch := length_patched hval hj hbytes
  have hval' : Splits k (patched k value j (block.take (storedSize k value j))) :=
    ⟨by rw [hpatch]; exact hval.reaches, by rw [hpatch]; exact hval.fits⟩
  rw [← hpatch]
  refine reassemble_eq hk hval' (fun s hs => ?_)
  refine ⟨by rw [hpatch, hblock], ?_⟩
  rw [piece_patched hval hj hbytes hs]
  by_cases hsj : s = j
  · subst hsj
    refine ⟨block, Cells.read_eq (by simp [hst.length, hs]), ?_⟩
    have hif : (if s < k - 1 then st.blockSize else st.lastSize) = storedSize k value s := by
      rw [storedSize, hblock, hst.lastSize]
      by_cases h : s = k - 1
      · rw [if_neg (by omega), if_pos h]
      · rw [if_pos (by omega), if_neg h]
    simp only [hif, if_true]
    exact readRange_take block _ (by omega)
  · obtain ⟨-, b, hread, hrange⟩ := readable_of_fetched hk hval hst hs ((hdone s hs).mpr hsj)
    refine ⟨b, ?_, ?_⟩
    · simp only [Cells.read, List.getElem?_set_ne (Ne.symm hsj)]
      exact hread
    · rw [if_neg hsj]
      exact hrange

end OptLrc.Losses
