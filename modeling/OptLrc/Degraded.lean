import OptLrc.Gather
import OptLrc.Repaired

namespace OptLrc.Degraded

open OptLrc.Galois OptLrc.Memory OptLrc.Jerasure OptLrc.Encoder OptLrc.Stripe OptLrc.Split
open OptLrc.Process OptLrc.Memcached OptLrc.Exchange OptLrc.Storage OptLrc.Retrieval OptLrc.Sync
open OptLrc.Wire OptLrc.Core OptLrc.Fetch OptLrc.Lookup OptLrc.Stored OptLrc.Writes OptLrc.Updates
open OptLrc.Keys OptLrc.Contents OptLrc.Arrival OptLrc.Decode OptLrc.Rebuild OptLrc.Reads OptLrc.Gets
open OptLrc.Gather OptLrc.Repaired

variable {V : CodingMatrix} {n k r j : Nat} {value : Block} {key : Key}

/-- The block that the decoder computes for data block `j`. -/
def decodedBlock (V : CodingMatrix) (n k r : Nat) (value : Block) (j : Nat) : Block :=
  combine (determineBlockSizeRs value.length k) (groupCount n r (j / r)) (fun _ => 1)
    (fun t => fullBlock V n k r value (takenPosition k r j (if t < j - r * (j / r) then t else t + 1)))

/-- The positions of the group of data block `j` that hold no data. -/
def restPosition (k r j i : Nat) : Nat := j / r * (r + 1) + dataCount k r j + i

/-- The sum of several blocks of the stripe. -/
def blockSum (V : CodingMatrix) (n k r : Nat) (value : Block) (pos : Nat → Nat) (m : Nat) : Block :=
  combine (determineBlockSizeRs value.length k) m (fun _ => 1) (fun i => fullBlock V n k r value (pos i))

/-- The pointers to the data blocks of the group, with the lost one cleared. -/
def groupCells (V : CodingMatrix) (n k r : Nat) (value : Block) (j t : Nat) : Option Block :=
  some (if t = j - r * (j / r) then zeroBlock (determineBlockSizeRs value.length k)
    else fullBlock V n k r value (j / r * (r + 1) + t))

section Decoding

variable (hv : Valid n k r) (hj : j < k)
include hv hj

theorem erased_lt : j - r * (j / r) < groupCount n r (j / r) := by
  obtain ⟨-, he, hle, -⟩ := group_of_data hv hj
  omega

omit hv hj in
theorem position_erased : j / r * (r + 1) + (j - r * (j / r)) = position r j := by
  have hdiv := Nat.div_add_mod' j r
  rw [position_eq, Nat.mul_comm r]
  omega

/-- The decoder is off by what it takes for the rest of the group. -/
theorem getD_decodedBlock (t : Nat) :
    (decodedBlock V n k r value j).getD t 0 = (fullBlock V n k r value (position r j)).getD t 0 +
      ((blockSum V n k r value (restPosition k r j) (askedCount n k r j)).getD t 0 +
        (blockSum V n k r value (askedPosition r j) (askedCount n k r j)).getD t 0) := by
  obtain ⟨hg, he, hle, -⟩ := group_of_data hv hj
  have hcount : groupCount n r (j / r) + 1 = dataCount k r j + askedCount n k r j := by
    unfold askedCount
    omega
  have hlen := length_fullBlock V n k r value
  have hzero := (localGroup_groupBlock (V := V) hv value hg).sum_eq_zero t
  rw [hcount, Finset.sum_range_add] at hzero
  have htaken : ∑ u ∈ Finset.range (groupCount n r (j / r) + 1),
      (fullBlock V n k r value (takenPosition k r j u)).getD t 0 =
      ∑ u ∈ Finset.range (dataCount k r j), (groupBlock V n k r value (j / r) u).getD t 0 +
        ∑ i ∈ Finset.range (askedCount n k r j),
          (fullBlock V n k r value (askedPosition r j i)).getD t 0 := by
    rw [hcount, Finset.sum_range_add]
    congr 1
    · refine Finset.sum_congr rfl (fun u hu => ?_)
      rw [takenPosition, if_pos (Finset.mem_range.mp hu), groupBlock]
    · refine Finset.sum_congr rfl (fun i _ => ?_)
      rw [takenPosition, if_neg (by omega), Nat.add_sub_cancel_left]
  have hrest : ∑ u ∈ Finset.range (dataCount k r j), (groupBlock V n k r value (j / r) u).getD t 0 =
      ∑ i ∈ Finset.range (askedCount n k r j),
        (fullBlock V n k r value (restPosition k r j i)).getD t 0 := by
    rw [CharTwo.add_eq_zero.mp hzero]
    refine Finset.sum_congr rfl (fun i _ => ?_)
    rw [groupBlock, restPosition, Nat.add_assoc]
  rw [decodedBlock, blockSum, blockSum, getD_combine _ _ _ _ (fun _ _ => hlen _),
    getD_combine _ _ _ _ (fun _ _ => hlen _), getD_combine _ _ _ _ (fun _ _ => hlen _)]
  simp only [one_mul]
  rw [sum_skip (fun u => (fullBlock V n k r value (takenPosition k r j u)).getD t 0) (by omega), htaken,
    hrest, takenPosition, if_pos he, position_erased]

variable {done : List Nat} {st : Decoding}
  (hst : AskedState V n k r j value (groupCells V n k r value j) done st)
include hst

theorem asked_write_erased :
    ∃ ptrs, st.dataPtrs.write (j - r * (j / r)) (zeroBlock (determineBlockSizeRs value.length k)) = .ok ptrs ∧
      ptrs[j - r * (j / r)]? = some (some (zeroBlock (determineBlockSizeRs value.length k))) ∧
      ∀ t < groupCount n r (j / r), t ≠ j - r * (j / r) → ptrs[t]? =
        some (if t < dataCount k r j ∨ t - dataCount k r j ∈ done then
          some (fullBlock V n k r value (takenPosition k r j t)) else none) := by
  obtain ⟨hg, he, hle, -⟩ := group_of_data hv hj
  have hlt : j - r * (j / r) < st.dataPtrs.length := by
    rw [hst.length]
    omega
  refine ⟨_, Cells.write_eq _ hlt, by simp [hlt], fun t ht hne => ?_⟩
  rw [List.getElem?_set_ne (Ne.symm hne)]
  rcases Nat.lt_or_ge t (dataCount k r j) with h | h
  · rw [hst.data t h, groupCells, if_neg hne, if_pos (Or.inl h), takenPosition, if_pos h]
  · have hasked := hst.asked (t - dataCount k r j) (by omega)
    rw [Nat.add_sub_cancel' h] at hasked
    have hnot : ¬ t < dataCount k r j := by omega
    simp only [hasked, takenPosition, hnot, if_false, false_or]

theorem decode_asked (hV : FirstRowOnes V) (hn : n ≤ maxNodes)
    (hdone : ∀ i < askedCount n k r j, i ∈ done) :
    ∃ ptrs block ptrs' coding', st.dataPtrs.write (j - r * (j / r))
        (zeroBlock (determineBlockSizeRs value.length k)) = .ok ptrs ∧
      st.codingPtrs.read 0 = .ok block ∧ block.length = determineBlockSizeRs value.length k ∧
      decodingParityPtrsLrc V ptrs (groupCount n r (j / r)) st.codingPtrs
        (determineBlockSizeRs value.length k) (j - r * (j / r)) = .ok (ptrs', coding') ∧
      ptrs'.read (j - r * (j / r)) = .ok (decodedBlock V n k r value j) := by
  obtain ⟨hg, he, hle, -⟩ := group_of_data hv hj
  obtain ⟨ptrs, hwrite, hzero, hptrs⟩ := asked_write_erased hv hj hst
  have hlt := group_lt hv.r_pos hg le_rfl
  have hnot : ¬ groupCount n r (j / r) < dataCount k r j := by omega
  have hcoding : st.codingPtrs[0]? = some (some (fullBlock V n k r value
      (takenPosition k r j (groupCount n r (j / r))))) := by
    rw [hst.coding, if_pos (hdone _ (by unfold askedCount; omega))]
    simp only [takenPosition, hnot, if_false, List.getElem?_cons_zero]
  have hdec := decode_others (localOnes hV hn (groupCount n r (j / r)) (by omega))
    (dvd_determineBlockSizeRs value.length hv.k_pos)
    (fun t _ => length_fullBlock V n k r value (takenPosition k r j t)) (erased_lt hv hj)
    (fun t ht hne => by
      rw [hptrs t ht hne, if_pos]
      by_cases h : t < dataCount k r j
      · exact Or.inl h
      · exact Or.inr (hdone _ (by unfold askedCount; omega))) hzero hcoding
  refine ⟨ptrs, _, _, _, hwrite, Cells.read_eq hcoding, length_fullBlock _ _ _ _ _ _, hdec, ?_⟩
  exact Cells.read_eq (by simp [(List.getElem?_eq_some_iff.mp hzero).1, decodedBlock])

theorem decode_asked_missing (hV : FirstRowOnes V) (hn : n ≤ maxNodes) {i : Nat}
    (hi : i < askedCount n k r j) (hmiss : i ∉ done) :
    ∃ ptrs err, st.dataPtrs.write (j - r * (j / r))
        (zeroBlock (determineBlockSizeRs value.length k)) = .ok ptrs ∧
      decodingParityPtrsLrc V ptrs (groupCount n r (j / r)) st.codingPtrs
        (determineBlockSizeRs value.length k) (j - r * (j / r)) = .error err := by
  obtain ⟨hg, he, hle, -⟩ := group_of_data hv hj
  obtain ⟨ptrs, hwrite, -, hptrs⟩ := asked_write_erased hv hj hst
  have hlt := group_lt hv.r_pos hg le_rfl
  unfold askedCount at hi
  have hnone : if dataCount k r j + i < groupCount n r (j / r) then ptrs[dataCount k r j + i]? = some none
      else st.codingPtrs[0]? = some none := by
    split
    · next h =>
      rw [hptrs _ h (by omega), if_neg]
      rw [Nat.add_sub_cancel_left]
      rintro (h | h)
      · omega
      · exact hmiss h
    · next h =>
      have hie : groupCount n r (j / r) - dataCount k r j = i := by omega
      rw [hst.coding, hie, if_neg hmiss]
      rfl
  obtain ⟨err, hdec⟩ : ∃ err, decodingParityPtrsLrc V ptrs (groupCount n r (j / r)) st.codingPtrs
      (determineBlockSizeRs value.length k) (j - r * (j / r)) = .error err :=
    decode_missing (localOnes hV hn (groupCount n r (j / r)) (by omega)) (by omega) (by omega)
      (Nat.le_of_lt (erased_lt hv hj)) hnone
  exact ⟨ptrs, err, hwrite, hdec⟩

end Decoding

/-- What is left of the degraded path after its second fetch. -/
def storeDecoded (V : CodingMatrix) (n k r : Nat) (key : Key) (j : Nat) (st : Fetched)
    (subValues : Cells Block) (num : Nat) (decoding : Decoding) : Prog Fetched := do
  crossTimes (blockKey key (j / r * (r + 1) + r)) decoding.codingPtrs st.blockSize num
  let dataPtrs ← Proc.lift (decoding.dataPtrs.write (j - r * (j / r)) (zeroBlock st.blockSize))
  let (dataPtrs, _) ← Proc.lift (decodingParityPtrsLrc V dataPtrs (groupCount n r (j / r))
    decoding.codingPtrs st.blockSize (j - r * (j / r)))
  let block ← Proc.lift (dataPtrs.read (j - r * (j / r)))
  writeBack V (blockKey key (position r j)) block (if j = k - 1 then st.lastSize else st.blockSize)
  let subValues ← Proc.lift (subValues.write j block)
  return { st with subValues := subValues, flags := decoding.flags }

section Exec

variable {σ : Type} {E : Env Request Reply σ} {view : σ → World} {c : Client} {x : σ}
  {place : Nat → Nat}

/-- On the degraded path `fail_node_index` is the position of the lost block. -/
theorem placed_failing (hp : Placed c place) (hj : j < c.numberOfK) :
    Placed { c with failNodeIndex := position c.numberOfR j } place :=
  hp.failing (position_lt hp.valid hj)

theorem fetchedSize_lost {done : List Nat} (hj : j < k) (hmiss : j ∉ done) :
    fetchedSize k value done = determineBlockSizeRs value.length k := by
  refine if_neg (fun h => hmiss ?_)
  rw [show j = 0 by omega]
  exact h.2

/-- Up to the second fetch, the degraded path gathers the data blocks of the group. -/
theorem exec_repairData_gather (key : Key) (hp : Placed c place) (hj : j < c.numberOfK) {done : List Nat} {st : Fetched}
    (hst : DataState c.numberOfK value done st) (hdone : ∀ s < c.numberOfK, s ∈ done ↔ s ≠ j) :
    ∃ num ptrs, AskedState V c.numberOfN c.numberOfK c.numberOfR j value
        (groupCells V c.numberOfN c.numberOfK c.numberOfR value j) [] ⟨ptrs, Cells.new 1, st.flags⟩ ∧
      (repairData V key j st).exec E c x = (do
        let rc ← memcachedMget (blockKeys key (askedPosition c.numberOfR j)
          (askedCount c.numberOfN c.numberOfK c.numberOfR j))
        let decoding ← if rc = .success then
            fetchEach (storeParity key.length (groupCount c.numberOfN c.numberOfR (j / c.numberOfR) + 1)
              (askedCount c.numberOfN c.numberOfK c.numberOfR j) (determineBlockSizeRs value.length c.numberOfK)
              (blockKeys key (askedPosition c.numberOfR j)
                (askedCount c.numberOfN c.numberOfK c.numberOfR j)))
              (askedCount c.numberOfN c.numberOfK c.numberOfR j) ⟨ptrs, Cells.new 1, st.flags⟩
          else pure ⟨ptrs, Cells.new 1, st.flags⟩
        storeDecoded V c.numberOfN c.numberOfK c.numberOfR key j st
          (st.subValues.set j (some (zeroBlock (determineBlockSizeRs value.length c.numberOfK)))) num decoding :
          Prog Fetched).exec E { c with failNodeIndex := position c.numberOfR j } x := by
  have hv := hp.valid
  obtain ⟨hg, he, hle, hdr⟩ := group_of_data hv hj
  have hsize : st.blockSize = determineBlockSizeRs value.length c.numberOfK := by
    rw [hst.blockSize, fetchedSize_lost hj (fun h => (hdone j hj).mp h rfl)]
  have hsub := Cells.write_eq (c := st.subValues) (zeroBlock st.blockSize) (show j < st.subValues.length by
    rw [hst.length]; exact hj)
  have hcells : ∀ t < dataCount c.numberOfK c.numberOfR j,
      (st.subValues.set j (some (zeroBlock st.blockSize)))[t + j / c.numberOfR * c.numberOfR]? =
        some (groupCells V c.numberOfN c.numberOfK c.numberOfR value j t) := by
    intro t ht
    have hr := hv.r_pos
    have hjr := Nat.div_add_mod' j c.numberOfR
    have hcomm := Nat.mul_comm c.numberOfR (j / c.numberOfR)
    have hlt : t + j / c.numberOfR * c.numberOfR < c.numberOfK := by
      unfold dataCount at ht
      omega
    by_cases h : t = j - c.numberOfR * (j / c.numberOfR)
    · rw [groupCells, if_pos h, show t + j / c.numberOfR * c.numberOfR = j by omega,
        List.getElem?_set_self (by rw [hst.length]; exact hj), hsize]
    · have hne : t + j / c.numberOfR * c.numberOfR ≠ j := by omega
      have hdiv : (t + j / c.numberOfR * c.numberOfR) / c.numberOfR = j / c.numberOfR := by
        rw [Nat.add_mul_div_right _ _ hr, Nat.div_eq_of_lt (by omega), Nat.zero_add]
      have hpos : position c.numberOfR (t + j / c.numberOfR * c.numberOfR) =
          j / c.numberOfR * (c.numberOfR + 1) + t := by
        rw [position, hdiv]
        ring
      rw [List.getElem?_set_ne (Ne.symm hne), hst.sub _ hlt, if_pos ((hdone _ hlt).mpr hne), groupCells,
        if_neg h, fetchedBlock, if_neg (by omega), ← hpos, fullBlock_data hv value hlt]
  obtain ⟨gathered, hgather, hlen, hptrs⟩ := gatherGroup_eq
    (fun m hm => le_lastDataIndex_iff hv hj (m := m) hm) hcells hle
    (fun m hm => hp.rack _ (group_lt hv.r_pos hg (by omega)))
  refine ⟨gathered.crossRackNum, gathered.dataPtrs, ⟨hlen, fun t ht => ?_, fun i hi => ?_, by simp [Cells.new]⟩, ?_⟩
  · rw [hptrs t (by omega), if_pos ht]
  · rw [hptrs _ (by omega), if_neg (by omega)]
    simp
  · rw [← repairNumber_eq hv hj] at hgather
    rw [repairData, Proc.exec_bind, Proc.exec_modify]
    simp only [Proc.exec_bind, Proc.exec_get, hsub, Proc.exec_lift_ok, hgather, parityKeys_eq hv hj,
      toFetch_eq hv hj]
    simp only [repairNumber_eq hv hj, ← hsize, Nat.add_sub_cancel]
    rfl

/-- The bytes of data block `j` that are stored. -/
def storedSize (k : Nat) (value : Block) (j : Nat) : Nat :=
  if j = k - 1 then lastSize k value else determineBlockSizeRs value.length k

theorem storedSize_le (hk : 1 ≤ k) (value : Block) (j : Nat) :
    storedSize k value j ≤ determineBlockSizeRs value.length k := by
  unfold storedSize
  split
  · exact lastSize_le hk value
  · exact le_rfl

theorem length_decodedBlock (V : CodingMatrix) (n k r : Nat) (value : Block) (j : Nat) :
    (decodedBlock V n k r value j).length = determineBlockSizeRs value.length k :=
  length_combine _ _ _ _ (fun _ _ => length_fullBlock _ _ _ _ _ _)

variable (hV : FirstRowOnes V) (hj : j < c.numberOfK) {done : List Nat} {st : Fetched}
  (hst : DataState c.numberOfK value done st) (hdone : ∀ s < c.numberOfK, s ∈ done ↔ s ≠ j)
  {asked : List Nat} {decoding : Decoding} (hasked : AskedState V c.numberOfN c.numberOfK c.numberOfR j value
    (groupCells V c.numberOfN c.numberOfK c.numberOfR value j) asked decoding) (num : Nat)
include hV hj hst hdone hasked

theorem exec_storeDecoded (hE : Replying E) (hp : Placed c place) {io : Io}
    (hs : Io.Synced c.serverCount io) (hkey : key.length ≤ 248)
    (hall : ∀ i < askedCount c.numberOfN c.numberOfK c.numberOfR j, i ∈ asked) :
    ∃ io' y, (storeDecoded V c.numberOfN c.numberOfK c.numberOfR key j st
        (st.subValues.set j (some (zeroBlock (determineBlockSizeRs value.length c.numberOfK)))) num
        decoding).exec E { c with failNodeIndex := position c.numberOfR j, io := io } x =
        (.ok ({ st with
          subValues := st.subValues.set j (some (decodedBlock V c.numberOfN c.numberOfK c.numberOfR value j))
          flags := decoding.flags }, { c with failNodeIndex := position c.numberOfR j, numberOfB := 1, io := io' }),
          (E.serve (place (position c.numberOfR j)) (.set (blockKey key (position c.numberOfR j))
            ((decodedBlock V c.numberOfN c.numberOfK c.numberOfR value j).take
              (storedSize c.numberOfK value j)) 0 86400) y).2) ∧
      Io.Synced c.serverCount io' ∧ CoreOnly E c.networkCoreServerKey x y := by
  have hv := hp.valid
  have hp' : Placed { c with failNodeIndex := position c.numberOfR j, io := io } place := (placed_failing hp hj).io io
  have hsize : st.blockSize = determineBlockSizeRs value.length c.numberOfK := by
    rw [hst.blockSize, fetchedSize_lost hj (fun h => (hdone j hj).mp h rfl)]
  have hstored : (if j = c.numberOfK - 1 then st.lastSize else st.blockSize) =
      storedSize c.numberOfK value j := by
    rw [hst.lastSize, hsize, storedSize]
  obtain ⟨ptrs, block, ptrs', coding', hwrite, hread, hlen, hdec, hres⟩ := decode_asked hv hj hasked hV
    hp.small hall
  obtain ⟨io1, y, hcross, hs1, hy⟩ : ∃ io1 y, (crossTimes (blockKey key (j / c.numberOfR *
      (c.numberOfR + 1) + c.numberOfR)) decoding.codingPtrs st.blockSize num).exec E
      { c with failNodeIndex := position c.numberOfR j, io := io } x =
      (.ok ((), { c with failNodeIndex := position c.numberOfR j, io := io1 }), y) ∧
      Io.Synced c.serverCount io1 ∧ CoreOnly E c.networkCoreServerKey x y :=
    exec_crossTimes hE hp' hs _ hread (by rw [hlen, hsize]) num
  obtain ⟨io2, hback, hs2⟩ : ∃ io2, (writeBack V (blockKey key (position c.numberOfR j))
      (decodedBlock V c.numberOfN c.numberOfK c.numberOfR value j) (storedSize c.numberOfK value j)).exec E
      { c with failNodeIndex := position c.numberOfR j, io := io1 } y =
      (.ok ((), { c with failNodeIndex := position c.numberOfR j, numberOfB := 1, io := io2 }), (E.serve
        (place (position c.numberOfR j)) (.set (blockKey key (position c.numberOfR j))
          ((decodedBlock V c.numberOfN c.numberOfK c.numberOfR value j).take (storedSize c.numberOfK value j))
          0 86400) y).2) ∧ Io.Synced c.serverCount io2 :=
    exec_writeBack hE ((placed_failing hp hj).io io1) hs1 V (keyTest_blockKey hkey _)
      (by rw [length_decodedBlock]; exact storedSize_le hv.k_pos value j)
  have hsub := Cells.write_eq (c := st.subValues.set j (some (zeroBlock st.blockSize)))
    (decodedBlock V c.numberOfN c.numberOfK c.numberOfR value j) (show j < _ by
      rw [List.length_set, hst.length]; exact hj)
  refine ⟨io2, y, ?_, hs2, hy⟩
  rw [← hsize] at hwrite hdec ⊢
  rw [storeDecoded, Proc.exec_bind_ok E _ _ hcross]
  simp only [hwrite, hdec, hres, hstored, hback, hsub, Proc.exec_bind, Proc.exec_lift_ok, List.set_set,
    Proc.exec_pure]

omit hdone in
theorem storeDecoded_missing (key : Key) (hp : Placed c place) (hmiss : ∃ i < askedCount c.numberOfN c.numberOfK
    c.numberOfR j, i ∉ asked) (hlost : j ∉ done) (sub : Cells Block) (c' : Client) :
    (storeDecoded V c.numberOfN c.numberOfK c.numberOfR key j st sub num decoding).Faults E c' x := by
  have hsize : st.blockSize = determineBlockSizeRs value.length c.numberOfK := by
    rw [hst.blockSize, fetchedSize_lost hj hlost]
  obtain ⟨i, hi, hmem⟩ := hmiss
  obtain ⟨ptrs, err, hwrite, hdec⟩ := decode_asked_missing hp.valid hj hasked hV hp.small hi hmem
  rw [← hsize] at hwrite hdec
  refine Proc.faults_bind (fun _ c1 x1 _ => ?_)
  refine Proc.faults_bind (fun a c2 x2 ha => ?_)
  rw [hwrite, Proc.exec_lift_ok] at ha
  cases ha
  exact (Proc.faults_lift _ hdec).bind _

end Exec

end OptLrc.Degraded
