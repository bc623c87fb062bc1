import OptLrc.Stored
import OptLrc.Retrieval
import Mathlib.Algebra.BigOperators.Fin

namespace OptLrc.Decode

open OptLrc.Galois OptLrc.Memory OptLrc.Jerasure OptLrc.Encoder OptLrc.Stripe OptLrc.Split
open OptLrc.Retrieval OptLrc.Stored

/-- A loop with a turn that always faults faults. -/
theorem foldlM_error {α β : Type} {f : β → α → Except Fault β} {l : List α} {a : α} (ha : a ∈ l)
    (h : ∀ st, ∃ e, f st a = .error e) (st : β) : ∃ e, l.foldlM f st = .error e := by
  induction l generalizing st with
  | nil => cases ha
  | cons b l ih =>
    rw [List.foldlM_cons]
    cases hb : f st b with
    | error e => exact ⟨e, rfl⟩
    | ok st' =>
      rcases List.mem_cons.mp ha with rfl | ha
      · obtain ⟨e, he⟩ := h st
        rw [hb] at he
        cases he
      · exact ih ha st'

/-- A dot product reads every source whose coefficient is one. -/
theorem dotprod_short {k j : Nat} (row : Nat → Byte) (sptr : Nat → Except Fault Block) (hj : j < k)
    (hrow : row j = 1) (size : Nat) (hs : ∀ s, sptr j = .ok s → s.length < size) (dptr : Block) :
    ∃ e, jerasureMatrixDotprod k row sptr dptr size = .error e := by
  have hturn : ∀ st, ∃ e, dotprodOnes row sptr size st j = .error e := by
    intro st
    cases hsrc : sptr j with
    | error e => exact ⟨e, by simp [dotprodOnes, hrow, hsrc]⟩
    | ok s =>
      have hlt := hs s hsrc
      have hread : ∀ m, size ≤ m → readRange s 0 m = .error .outOfBounds := fun m hm => if_neg (by omega)
      have hword : size ≤ wordEnd size := by
        unfold wordEnd
        omega
      cases hst : st.1 with
      | true => exact ⟨_, by simp [dotprodOnes, hrow, hsrc, hst, galoisRegionXor, hread _ hword]; rfl⟩
      | false => exact ⟨_, by simp [dotprodOnes, hrow, hsrc, hst, memcpy, hread _ le_rfl]; rfl⟩
  obtain ⟨e, hfold⟩ := foldlM_error (List.mem_range.mpr hj) hturn (false, dptr)
  exact ⟨e, by rw [jerasureMatrixDotprod, hfold, error_bind]⟩

theorem dotprod_error {k j : Nat} (row : Nat → Byte) (sptr : Nat → Except Fault Block) (hj : j < k)
    (hrow : row j = 1) {e : Fault} (he : sptr j = .error e) (dptr : Block) (size : Nat) :
    ∃ e, jerasureMatrixDotprod k row sptr dptr size = .error e :=
  dotprod_short row sptr hj hrow size (fun s hs => by rw [he] at hs; cases hs) dptr

/-- The blocks of a local group, the parity last. -/
structure LocalGroup (size count : Nat) (b : Nat → Block) : Prop where
  length : ∀ j ≤ count, (b j).length = size
  parity : b count = combine size count (fun _ => 1) b

section Group

variable {V : CodingMatrix} {size count : Nat} {b : Nat → Block} {subValues codingPtrs : Cells Block}

theorem sum_skip (f : Nat → Byte) {e count : Nat} (he : e < count + 1) :
    ∑ j ∈ Finset.range count, f (if j < e then j else j + 1) =
      f e + ∑ j ∈ Finset.range (count + 1), f j := by
  have hsum : ∑ j : Fin count, f (if j.val < e then j.val else j.val + 1) =
      ∑ j : Fin count, f (Fin.succAbove ⟨e, he⟩ j) := by
    refine Finset.sum_congr rfl (fun j _ => ?_)
    have hval : (Fin.succAbove (⟨e, he⟩ : Fin (count + 1)) j).val =
        if j.val < e then j.val else j.val + 1 := by
      rw [Fin.succAbove, apply_ite Fin.val]
      rfl
    rw [hval]
  rw [Finset.sum_range, Finset.sum_range, Fin.sum_univ_succAbove _ ⟨e, he⟩, hsum, ← add_assoc, add_self,
    zero_add]

/-- The blocks of a group sum to zero. -/
theorem LocalGroup.sum_eq_zero (h : LocalGroup size count b) (t : Nat) :
    ∑ j ∈ Finset.range (count + 1), (b j).getD t 0 = 0 := by
  have hpar : (b count).getD t 0 = ∑ j ∈ Finset.range count, (b j).getD t 0 := by
    rw [h.parity, getD_combine _ _ _ _ (fun j hj => h.length j (by omega))]
    simp
  rw [Finset.sum_range_succ, hpar, add_self]

/-- A block of a group is the sum of the others. -/
theorem LocalGroup.combine_others (h : LocalGroup size count b) {e : Nat} (he : e < count) :
    combine size count (fun _ => 1) (fun j => b (if j < e then j else j + 1)) = b e := by
  have hlen : ∀ j < count, (b (if j < e then j else j + 1)).length = size := by
    intro j hj
    split
    · exact h.length j (by omega)
    · exact h.length (j + 1) (by omega)
  refine block_ext (by rw [length_combine _ _ _ _ hlen, h.length e (by omega)]) (fun t => ?_)
  rw [getD_combine _ _ _ _ hlen]
  simp only [one_mul]
  rw [sum_skip (fun j => (b j).getD t 0) (show e < count + 1 by omega), h.sum_eq_zero t, add_zero]

variable (hV : ∀ j < count, V count 1 0 j = 1) (h8 : 8 ∣ size)
include hV h8

theorem jerasureMatrixDotprod_ones {sptr : Nat → Except Fault Block} {src : Nat → Block}
    (hs : ∀ i < count, sptr i = .ok (src i)) (hl : ∀ i < count, (src i).length = size) :
    jerasureMatrixDotprod count (V count 1 0) sptr (zeroBlock size) size =
      .ok (combine size count (fun _ => 1) src) := by
  rw [jerasureMatrixDotprod_eq h8 hs hl, combine_congr hV (fun _ _ => rfl)]

/-- An erased data block becomes the sum of the others. -/
theorem decode_others (hlen : ∀ j ≤ count, (b j).length = size) {e : Nat} (he : e < count)
    (hsub : ∀ j < count, j ≠ e → subValues[j]? = some (some (b j)))
    (hzero : subValues[e]? = some (some (zeroBlock size))) (hcoding : codingPtrs[0]? = some (some (b count))) :
    decodingParityPtrsLrc V subValues count codingPtrs size e =
      .ok (subValues.set e (some (combine size count (fun _ => 1)
        (fun j => b (if j < e then j else j + 1)))), codingPtrs) := by
  have hsource : ∀ j < count, (let id := if j < e then j else j + 1
      if id < count then subValues.read id else codingPtrs.read (id - count)) =
      .ok (b (if j < e then j else j + 1)) := by
    intro j hj
    simp only
    by_cases hlt : (if j < e then j else j + 1) < count
    · have hne : (if j < e then j else j + 1) ≠ e := by split <;> omega
      rw [if_pos hlt, Cells.read_eq (hsub _ hlt hne)]
    · rw [if_neg hlt]
      have hc : (if j < e then j else j + 1) = count := by
        split at hlt <;> split <;> omega
      rw [hc, Nat.sub_self, Cells.read_eq hcoding]
  have hdot := jerasureMatrixDotprod_ones hV h8 hsource (fun j hj => by
    split
    · exact hlen j (by omega)
    · exact hlen (j + 1) (by omega))
  rw [decodingParityPtrsLrc, jerasureMatrixDecode, if_pos he, Cells.read_eq hzero]
  simp only [ok_bind]
  rw [hdot, ok_bind, Cells.write_eq _ (List.getElem?_eq_some_iff.mp hzero).1, ok_bind]
  rfl

theorem decode_data (h : LocalGroup size count b) {e : Nat} (he : e < count)
    (hsub : ∀ j < count, j ≠ e → subValues[j]? = some (some (b j)))
    (hzero : subValues[e]? = some (some (zeroBlock size))) (hcoding : codingPtrs[0]? = some (some (b count))) :
    decodingParityPtrsLrc V subValues count codingPtrs size e =
      .ok (subValues.set e (some (b e)), codingPtrs) := by
  rw [decode_others hV h8 h.length he hsub hzero hcoding, h.combine_others he]

theorem decode_parity (h : LocalGroup size count b)
    (hsub : ∀ j < count, subValues[j]? = some (some (b j)))
    (hzero : codingPtrs[0]? = some (some (zeroBlock size))) :
    decodingParityPtrsLrc V subValues count codingPtrs size count =
      .ok (subValues, codingPtrs.set 0 (some (b count))) := by
  have hdot := jerasureMatrixDotprod_ones hV h8 (fun j hj => Cells.read_eq (hsub j hj))
    (fun j hj => h.length j (by omega))
  rw [← h.parity] at hdot
  have hwrite := Cells.write_eq (c := codingPtrs) (b count) (List.getElem?_eq_some_iff.mp hzero).1
  rw [decodingParityPtrsLrc, jerasureMatrixDecode, if_neg (lt_irrefl _), if_pos rfl,
    Cells.read_eq hzero, ok_bind, hdot, ok_bind, hwrite, ok_bind]
  rfl

omit h8 in
/-- Decoding a data block reads the parity. -/
theorem decode_reads_parity {e : Nat} (he : e < count) {out : Cells Block × Cells Block}
    (hdec : decodingParityPtrsLrc V subValues count codingPtrs size e = .ok out) :
    ∃ block, codingPtrs.read 0 = .ok block ∧ size ≤ block.length := by
  by_contra hno
  rw [decodingParityPtrsLrc, jerasureMatrixDecode, if_pos he] at hdec
  obtain ⟨d, -, hdec⟩ := bind_eq_ok.mp hdec
  obtain ⟨d', hdot, -⟩ := bind_eq_ok.mp hdec
  -- the last turn reads the block after the data
  obtain ⟨err, herr⟩ := dotprod_short (V count 1 0) (fun i => if (if i < e then i else i + 1) < count
    then subValues.read (if i < e then i else i + 1) else codingPtrs.read ((if i < e then i else i + 1) - count))
    (show count - 1 < count by omega) (hV _ (by omega)) size (fun s hs => by
      simp only [show ¬ count - 1 < e by omega, if_false, show ¬ count - 1 + 1 < count by omega,
        show count - 1 + 1 - count = 0 by omega] at hs
      by_contra hle
      exact hno ⟨s, hs, not_lt.mp hle⟩) d
  rw [herr] at hdot
  cases hdot

omit h8 in
/-- Decoding without one of the other blocks follows a pointer that was never set. -/
theorem decode_missing {e j : Nat} (hj : j ≤ count) (hne : j ≠ e) (he : e ≤ count)
    (hmiss : if j < count then subValues[j]? = some none else codingPtrs[0]? = some none) :
    ∃ err, decodingParityPtrsLrc V subValues count codingPtrs size e = .error err := by
  rw [decodingParityPtrsLrc, jerasureMatrixDecode]
  rcases Nat.lt_or_ge e count with hlt | hge
  · -- turn `i` reads block `j`
    obtain ⟨i, hi, hij⟩ : ∃ i < count, (if i < e then i else i + 1) = j := by
      by_cases h : j < e
      · exact ⟨j, by omega, if_pos h⟩
      · exact ⟨j - 1, by omega, by rw [if_neg (by omega)]; omega⟩
    rw [if_pos hlt]
    cases subValues.read e with
    | error err => exact ⟨err, rfl⟩
    | ok d =>
      obtain ⟨err, hdot⟩ := dotprod_error (e := .uninitialised) (V count 1 0)
        (fun i => if (if i < e then i else i + 1) < count
          then subValues.read (if i < e then i else i + 1)
          else codingPtrs.read ((if i < e then i else i + 1) - count)) hi (hV i hi) (by
            simp only [hij]
            by_cases hjc : j < count
            · rw [if_pos hjc] at hmiss ⊢
              simp [Cells.read, hmiss]
            · rw [if_neg hjc] at hmiss ⊢
              rw [show j - count = 0 by omega]
              simp [Cells.read, hmiss]) d size
      refine ⟨err, ?_⟩
      simp only [ok_bind]
      rw [hdot, error_bind]
  · have hjc : j < count := by omega
    rw [if_neg (by omega), if_pos (by omega)]
    cases codingPtrs.read 0 with
    | error err => exact ⟨err, rfl⟩
    | ok d =>
      rw [if_pos hjc] at hmiss
      obtain ⟨err, hdot⟩ := dotprod_error (e := .uninitialised) (V count 1 0) subValues.read hjc
        (hV j hjc) (by simp [Cells.read, hmiss]) d size
      exact ⟨err, by rw [ok_bind, hdot, error_bind]⟩

end Group

section Blocks

variable {V : CodingMatrix} {n k r : Nat}

/-- A local group of the stripe of a value. -/
def groupBlock (V : CodingMatrix) (n k r : Nat) (value : Block) (i j : Nat) : Block :=
  fullBlock V n k r value (i * (r + 1) + j)

theorem length_fullBlock (V : CodingMatrix) (n k r : Nat) (value : Block) (p : Nat) :
    (fullBlock V n k r value p).length = determineBlockSizeRs value.length k := by
  have hsource : ∀ s, (sourceBlock (V k (globalNumber n k r)) k (determineBlockSizeRs value.length k)
      (dataBlock (determineBlockSizeRs value.length k) value) s).length =
      determineBlockSizeRs value.length k :=
    length_sourceBlock _ (fun s _ => length_dataBlock _ _ s)
  simp only [fullBlock, stripeBlock]
  split
  · exact length_parityBlock (fun s _ => hsource s) _
  · exact hsource _

theorem localGroup_groupBlock (hv : Valid n k r) (value : Block) {i : Nat}
    (hi : i < localGroupNumber n r) :
    LocalGroup (determineBlockSizeRs value.length k) (groupCount n r i) (groupBlock V n k r value i) where
  length := fun j _ => length_fullBlock V n k r value _
  parity := by
    refine (stripeBlock_parity hv.r_pos i hi).trans (combine_congr (fun _ _ => rfl) (fun j hj => ?_))
    exact (stripeBlock_source hv.r_pos i j hi hj).symm

theorem writeRange_zeroBlock {size : Nat} {src : Block} (h : src.length ≤ size) :
    writeRange (zeroBlock size) 0 src = .ok (src ++ zeroBlock (size - src.length)) := by
  simp [writeRange, zeroBlock, h]

theorem lastBlock_eq (hk : 1 ≤ k) (value : Block) :
    (dataBlock (determineBlockSizeRs value.length k) value (k - 1)).take
      (value.length - determineBlockSizeRs value.length k * (k - 1)) =
      value.drop ((k - 1) * determineBlockSizeRs value.length k) := by
  have hle := lastSize_le hk value
  generalize determineBlockSizeRs value.length k = size at hle
  rw [Nat.mul_comm size] at hle ⊢
  have htake : (value.drop ((k - 1) * size)).take size = value.drop ((k - 1) * size) :=
    List.take_of_length_le (by rw [List.length_drop]; exact hle)
  rw [dataBlock, htake, List.take_append_of_le_length (by rw [List.length_drop]),
    List.take_of_length_le (by rw [List.length_drop])]

/-- A fetched block, cleared at its end, is the block of the stripe. -/
theorem copyBlock_storedBlock (hv : Valid n k r) (value : Block) (p : Nat) :
    copyBlock (determineBlockSizeRs value.length k) (storedBlock V n k r value p) =
      .ok (fullBlock V n k r value p) := by
  have hk := hv.k_pos
  unfold copyBlock storedBlock
  by_cases hlast : p = lastDataIndex k r
  · have hle := lastSize_le hk value
    simp only [if_pos hlast]
    rw [hlast, lastDataIndex_eq hk, fullBlock_data hv value (by omega), lastBlock_eq hk,
      writeRange_zeroBlock (by rw [List.length_drop, Nat.mul_comm]; exact hle), dataBlock,
      List.take_of_length_le (by rw [List.length_drop, Nat.mul_comm]; exact hle)]
  · simp only [if_neg hlast]
    rw [writeRange_all _ _ (by rw [length_fullBlock, length_zeroBlock])]

theorem length_storedBlock (V : CodingMatrix) (n : Nat) (hk : 1 ≤ k) (r : Nat) (value : Block) (p : Nat) :
    (storedBlock V n k r value p).length = if p = lastDataIndex k r then
      value.length - determineBlockSizeRs value.length k * (k - 1)
      else determineBlockSizeRs value.length k := by
  have hle := lastSize_le hk value
  unfold storedBlock
  split
  · rw [List.length_take, length_fullBlock]
    omega
  · rw [length_fullBlock]

end Blocks

end OptLrc.Decode
