import OptLrc.Gets

namespace OptLrc.Gather

open OptLrc.Galois OptLrc.Memory OptLrc.Jerasure OptLrc.Encoder OptLrc.Stripe OptLrc.Split
open OptLrc.Process OptLrc.Memcached OptLrc.Exchange OptLrc.Storage OptLrc.Retrieval OptLrc.Sync
open OptLrc.Wire OptLrc.Core OptLrc.Fetch OptLrc.Lookup OptLrc.Stored OptLrc.Writes OptLrc.Updates
open OptLrc.Keys OptLrc.Contents OptLrc.Arrival OptLrc.Decode OptLrc.Rebuild OptLrc.Reads OptLrc.Gets

variable {V : CodingMatrix} {n k r j : Nat} {value : Block} {key : Key}

/-- The data blocks in the local group of data block `j`. -/
def dataCount (k r j : Nat) : Nat := min r (k - j / r * r)

section Shape

variable (hv : Valid n k r) (hj : j < k)
include hv hj

theorem group_of_data : j / r < localGroupNumber n r ∧ j - r * (j / r) < dataCount k r j ∧
    dataCount k r j ≤ groupCount n r (j / r) ∧ dataCount k r j ≤ r := by
  have hr := hv.r_pos
  have hd := Nat.div_add_mod j r
  have hm := Nat.mod_lt j (show 0 < r by omega)
  obtain ⟨hi, hii⟩ := lt_groupCount hr j (data_lt hv hj)
  have e : j / r * r = r * (j / r) := Nat.mul_comm _ _
  refine ⟨hi, ?_, ?_, min_le_left _ _⟩
  · unfold dataCount
    omega
  · have hf := hv.fits
    unfold dataCount groupCount
    omega

/-- A group is all data exactly when it is full and the data does not end inside it. -/
theorem dataCount_eq_iff : dataCount k r j = r ↔ k % r = 0 ∨ j / r ≠ (k - 1) / r := by
  have hr := hv.r_pos
  have hdj := Nat.div_add_mod j r
  have hmj := Nat.mod_lt j (show 0 < r by omega)
  have hdk := Nat.div_add_mod (k - 1) r
  have hmk := Nat.mod_lt (k - 1) (show 0 < r by omega)
  have hle : j / r ≤ (k - 1) / r := Nat.div_le_div_right (by omega)
  have e : j / r * r = r * (j / r) := Nat.mul_comm _ _
  have hk : k % r = 0 ↔ (k - 1) % r = r - 1 := by
    have hkr : k % r = ((k - 1) % r + 1) % r := by
      rw [Nat.mod_add_mod, show k - 1 + 1 = k by omega]
    rw [hkr]
    rcases Nat.lt_or_ge ((k - 1) % r + 1) r with hlt | hge
    · rw [Nat.mod_eq_of_lt hlt]
      omega
    · rw [show (k - 1) % r + 1 = r by omega, Nat.mod_self]
      omega
  unfold dataCount
  rcases Nat.lt_or_ge (j / r) ((k - 1) / r) with hlt | hge
  · have : r * (j / r + 1) ≤ r * ((k - 1) / r) := Nat.mul_le_mul_left _ hlt
    have e' : r * (j / r + 1) = r * (j / r) + r := by ring
    omega
  · have heq : j / r = (k - 1) / r := by omega
    rw [heq] at e ⊢
    omega

theorem repairNumber_eq : repairNumber n r (j / r) = groupCount n r (j / r) + 1 := by
  obtain ⟨hi, -⟩ := group_of_data hv hj
  rw [← groupNumber_eq hv.r_pos hi, repairNumber, Nat.mul_comm (r + 1)]

theorem toFetch_eq : toFetch k r j (repairNumber n r (j / r)) =
    groupCount n r (j / r) + 1 - dataCount k r j := by
  obtain ⟨hi, -, hle, hdr⟩ := group_of_data hv hj
  have hgr := groupCount_le n r (j / r)
  rw [repairNumber_eq hv hj, toFetch]
  by_cases h : dataCount k r j = r
  · have := (dataCount_eq_iff hv hj).mp h
    rw [if_neg (by omega), h]
    omega
  · have hnot := (dataCount_eq_iff hv hj).not.mp h
    push Not at hnot
    rw [if_pos hnot]
    have : dataCount k r j = k - j / r * r := by
      unfold dataCount at h ⊢
      omega
    rw [this]

/-- The data positions of the group are those up to the last data block. -/
theorem le_lastDataIndex_iff {m : Nat} (hm : m < groupCount n r (j / r)) :
    j / r * (r + 1) + m ≤ lastDataIndex k r ↔ m < dataCount k r j := by
  have hgr := groupCount_le n r (j / r)
  have hdk := Nat.div_add_mod' (k - 1) r
  have hle : j / r ≤ (k - 1) / r := Nat.div_le_div_right (by omega)
  rw [lastDataIndex_eq hv.k_pos, position_eq]
  unfold dataCount
  rcases Nat.lt_or_ge (j / r) ((k - 1) / r) with hlt | hge
  · have h1 : (j / r + 1) * (r + 1) ≤ (k - 1) / r * (r + 1) := Nat.mul_le_mul_right _ hlt
    have h2 : (j / r + 1) * r ≤ (k - 1) / r * r := Nat.mul_le_mul_right _ hlt
    have e1 : (j / r + 1) * (r + 1) = j / r * (r + 1) + r + 1 := by ring
    have e2 : (j / r + 1) * r = j / r * r + r := by ring
    omega
  · have heq : j / r = (k - 1) / r := by omega
    rw [heq]
    omega

end Shape

section Gather

variable {nodeRack : Cells Nat} {start groupStart count d lastIndex : Nat} {subValues : Cells Block}
  {cells : Nat → Option Block}

/-- What the loop has gathered after `m` turns: the pointers to the first `d` blocks. -/
structure Gathering (count d : Nat) (cells : Nat → Option Block) (m : Nat) (st : Gathered) : Prop where
  length : st.dataPtrs.length = count + 1
  ptrs : ∀ t < count + 1, st.dataPtrs[t]? = some (if t < min m d then cells t else none)
  stopped : st.stopped = decide (d < m)

theorem gatherStep_eq (hlast : ∀ m < count, start + m ≤ lastIndex ↔ m < d)
    (hcells : ∀ t < d, subValues[t + groupStart]? = some (cells t)) {m : Nat} (hm : m < count)
    (hrack : ∃ id, nodeRack.read (start + m) = .ok id) {st : Gathered}
    (hst : Gathering count d cells m st) :
    ∃ st', gatherStep nodeRack start groupStart lastIndex subValues st (start + m) = .ok st' ∧
      Gathering count d cells (m + 1) st' := by
  obtain ⟨id, hid⟩ := hrack
  unfold gatherStep
  by_cases hstop : d < m
  · have hmin : min (m + 1) d = min m d := by omega
    rw [if_pos (by rw [hst.stopped]; simpa using hstop)]
    refine ⟨st, rfl, hst.length, ?_, ?_⟩
    · rw [hmin]
      exact hst.ptrs
    · rw [hst.stopped, decide_eq_decide]
      omega
  · rw [if_neg (by rw [hst.stopped]; simpa using hstop), hid, ok_bind, Nat.add_sub_cancel_left]
    generalize hst' : (if st.firstRack ≠ id then
      ({ st with firstRack := id, crossRackNum := st.crossRackNum + 1 } : Gathered) else st) = st'
    have hptrs : st'.dataPtrs = st.dataPtrs := by
      rw [← hst']
      split <;> rfl
    by_cases hmd : m < d
    · rw [if_pos ((hlast m hm).mpr hmd)]
      have hcell : subValues.cell (m + groupStart) = .ok (cells m) := by
        simp [Cells.cell, hcells m hmd]
      have hput : st'.dataPtrs.put m (cells m) = .ok (st.dataPtrs.set m (cells m)) := by
        rw [hptrs, Cells.put, if_pos (by rw [hst.length]; omega)]
      rw [hcell, ok_bind, hput, ok_bind]
      refine ⟨_, rfl, by simpa using hst.length, fun t ht => ?_, ?_⟩
      · by_cases htm : t = m
        · subst htm
          have : t < min (t + 1) d := by omega
          simp [hst.length, ht, this]
        · have : t < min (m + 1) d ↔ t < min m d := by omega
          simp only [List.getElem?_set_ne (Ne.symm htm), hst.ptrs t ht, this]
      · have hstop' : st'.stopped = st.stopped := by
          rw [← hst']
          split <;> rfl
        simp only [hstop', hst.stopped]
        rw [decide_eq_decide]
        omega
    · have hmin : min (m + 1) d = min m d := by omega
      rw [if_neg (by rw [hlast m hm]; exact hmd)]
      refine ⟨_, rfl, by simpa [hptrs] using hst.length, ?_, ?_⟩
      · simp only [hptrs, hmin]
        exact hst.ptrs
      · simp only [true_eq_decide_iff]
        omega

theorem gatherGroup_eq (hlast : ∀ m < count, start + m ≤ lastIndex ↔ m < d)
    (hcells : ∀ t < d, subValues[t + groupStart]? = some (cells t)) (hd : d ≤ count)
    (hrack : ∀ m < count + 1, ∃ id, nodeRack.read (start + m) = .ok id) :
    ∃ st, gatherGroup nodeRack start groupStart (count + 1) lastIndex subValues = .ok st ∧
      st.dataPtrs.length = count + 1 ∧
      ∀ t < count + 1, st.dataPtrs[t]? = some (if t < d then cells t else none) := by
  obtain ⟨first, hfirst⟩ := hrack 0 (by omega)
  have hrun : ∀ m ≤ count, ∃ st, (List.range m).foldlM
      (fun st ii => gatherStep nodeRack start groupStart lastIndex subValues st (start + ii))
      (⟨first, 0, Cells.new (count + 1), false⟩ : Gathered) = .ok st ∧ Gathering count d cells m st := by
    intro m hm
    induction m with
    | zero =>
      refine ⟨_, rfl, by simp, fun t ht => ?_, by simp⟩
      simp only [Nat.zero_min, Nat.not_lt_zero, if_false, Cells.new]
      simp [ht]
    | succ m ih =>
      obtain ⟨st, he, hst⟩ := ih (by omega)
      obtain ⟨st', he', hst'⟩ := gatherStep_eq hlast hcells (by omega) (hrack m (by omega)) hst
      refine ⟨st', ?_, hst'⟩
      rw [List.range_succ, List.foldlM_append, he, ok_bind, List.foldlM_cons, he', ok_bind]
      rfl
  obtain ⟨st, he, hst⟩ := hrun count le_rfl
  obtain ⟨id, hid⟩ := hrack count (by omega)
  have hread : nodeRack.read start = .ok first := by simpa using hfirst
  have hend : nodeRack.read (start + (count + 1) - 1) = .ok id := by
    rw [show start + (count + 1) - 1 = start + count by omega, hid]
  rw [gatherGroup, Nat.add_sub_cancel, hread, ok_bind, he, ok_bind, hend, ok_bind]
  refine ⟨_, rfl, ?_, fun t ht => ?_⟩
  · split
    · exact hst.length
    · exact hst.length
  · have := hst.ptrs t ht
    rw [show min count d = d by omega] at this
    split <;> exact this

end Gather

/-- The position that key `i` of the second fetch names. -/
def askedPosition (r j i : Nat) : Nat := (j / r * (r + 1) + r + i) % 2560

/-- The number of requests of the second fetch. -/
def askedCount (n k r j : Nat) : Nat := groupCount n r (j / r) + 1 - dataCount k r j

/-- The positions that the decoder takes for the group of data block `j`. -/
def takenPosition (k r j t : Nat) : Nat :=
  if t < dataCount k r j then j / r * (r + 1) + t else askedPosition r j (t - dataCount k r j)

theorem parityKeys_eq (hv : Valid n k r) (hj : j < k) (key : Key) :
    parityKeys key k r j (repairNumber n r (j / r)) =
      blockKeys key (askedPosition r j) (askedCount n k r j) := by
  rw [parityKeys, toFetch_eq hv hj]
  exact List.map_congr_left (fun i _ => (blockKey_mod key _).symm)

theorem askedCount_le (hv : Valid n k r) (hj : j < k) : askedCount n k r j ≤ n := by
  obtain ⟨hg, -⟩ := group_of_data hv hj
  have := group_lt hv.r_pos hg le_rfl
  unfold askedCount
  omega

theorem askedPosition_inj {a b : Nat} (ha : a < 2560) (hb : b < 2560)
    (h : askedPosition r j a = askedPosition r j b) : a = b := by
  unfold askedPosition at h
  omega

/-- The last block of the second fetch is read up to the block size. -/
def Whole (n k r j : Nat) (value : Block) : Prop :=
  askedPosition r j (askedCount n k r j - 1) = lastDataIndex k r →
    lastSize k value = determineBlockSizeRs value.length k

/-- What the second fetch has collected. -/
structure AskedState (V : CodingMatrix) (n k r j : Nat) (value : Block) (cells : Nat → Option Block)
    (done : List Nat) (st : Decoding) : Prop where
  length : st.dataPtrs.length = groupCount n r (j / r) + 1
  data : ∀ t < dataCount k r j, st.dataPtrs[t]? = some (cells t)
  asked : ∀ i, dataCount k r j + i < groupCount n r (j / r) → st.dataPtrs[dataCount k r j + i]? =
    some (if i ∈ done then some (fullBlock V n k r value (askedPosition r j i)) else none)
  coding : st.codingPtrs = [if groupCount n r (j / r) - dataCount k r j ∈ done then
    some (fullBlock V n k r value (askedPosition r j (groupCount n r (j / r) - dataCount k r j))) else none]

theorem storedBlock_eq_full {p : Nat}
    (h : p = lastDataIndex k r → lastSize k value = determineBlockSizeRs value.length k) :
    storedBlock V n k r value p = fullBlock V n k r value p := by
  unfold storedBlock
  simp only
  split
  · next hp =>
    rw [← lastSize, h hp, List.take_of_length_le (by rw [length_fullBlock])]
  · rfl

section Fold

variable {cells : Nat → Option Block} (hv : Valid n k r) (hn : n ≤ maxNodes) (hnul : (0 : Byte) ∉ key)
  (hj : j < k) (hpos : ∀ i < askedCount n k r j, askedPosition r j i < n)
include hv hn hnul hj hpos

theorem storeParity_eq {done : List Nat} {st : Decoding}
    (hst : AskedState V n k r j value cells done st) {i : Nat} (hi : i < askedCount n k r j)
    (hwhole : i = askedCount n k r j - 1 → Whole n k r j value) {item : Item} (hitem : item.value = storedBlock V n k r value (askedPosition r j i)) :
    ∃ st', storeParity key.length (groupCount n r (j / r) + 1) (askedCount n k r j)
        (determineBlockSizeRs value.length k) (blockKeys key (askedPosition r j) (askedCount n k r j)) st
        (arrival key (askedPosition r j) (i, item)) = .ok st' ∧
      AskedState V n k r j value cells (i :: done) st' := by
  have hn' : n ≤ 20 := hn
  generalize hresult : arrival key (askedPosition r j) (i, item) = result
  have hname : result.itemKey = blockKey key (askedPosition r j i) := by
    rw [← hresult]
    rfl
  replace hitem : result.value = storedBlock V n k r value (askedPosition r j i) := by
    rw [← hresult]
    exact hitem
  have hle' := askedCount_le hv hj
  obtain ⟨-, -, hle, -⟩ := group_of_data hv hj
  have hcount : askedCount n k r j = groupCount n r (j / r) + 1 - dataCount k r j := rfl
  have hmatch := matchKey_blockKey hnul (askedPosition r j)
    (fun t ht => by have := hpos t ht; omega)
    (fun a _ b _ h => askedPosition_inj (by omega) (by omega) h) hi
  have hcopy := copyBlock_storedBlock (V := V) hv value (askedPosition r j i)
  rw [← hitem] at hcopy
  unfold storeParity
  rw [hname, show blockKeys key (askedPosition r j) (askedCount n k r j) =
    (List.range (askedCount n k r j)).map (fun i => blockKey key (askedPosition r j i)) from rfl, hmatch,
    ok_bind]
  by_cases hlast : i = askedCount n k r j - 1
  · have hfull : result.value = fullBlock V n k r value (askedPosition r j i) := by
      rw [hitem]
      exact storedBlock_eq_full (by rw [hlast]; exact hwhole hlast)
    have hlen : result.value.length = determineBlockSizeRs value.length k := by
      rw [hfull, length_fullBlock]
    rw [if_pos hlast, if_neg (by omega), Cells.write_eq _ (by simp [hst.coding]), ok_bind]
    refine ⟨_, rfl, hst.length, hst.data, fun t ht => ?_, ?_⟩
    · have : t ≠ i := by omega
      simpa [this] using hst.asked t ht
    · have : groupCount n r (j / r) - dataCount k r j = i := by omega
      simp [hst.coding, this, hfull]
  · have hput : groupCount n r (j / r) + 1 - askedCount n k r j + i = dataCount k r j + i := by omega
    rw [if_neg hlast, hcopy, ok_bind, hput, Cells.write_eq _ (by rw [hst.length]; omega), ok_bind]
    refine ⟨_, rfl, by simpa using hst.length, fun t ht => ?_, fun t ht => ?_, ?_⟩
    · rw [List.getElem?_set_ne (by omega), hst.data t ht]
    · by_cases h : t = i
      · subst h
        have : dataCount k r j + t < st.dataPtrs.length := by
          rw [hst.length]
          omega
        simp [this]
      · rw [List.getElem?_set_ne (by omega), hst.asked t ht]
        simp [h]
    · have : groupCount n r (j / r) - dataCount k r j ≠ i := by omega
      simpa [this] using hst.coding

end Fold

end OptLrc.Gather
