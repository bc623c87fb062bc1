import OptLrc.Arrival
import OptLrc.Decode
import OptLrc.Updates

namespace OptLrc.Rebuild

open OptLrc.Galois OptLrc.Memory OptLrc.Jerasure OptLrc.Encoder OptLrc.Stripe OptLrc.Process
open OptLrc.Memcached OptLrc.Exchange OptLrc.Storage OptLrc.Retrieval OptLrc.Repair OptLrc.Sync
open OptLrc.Wire OptLrc.Core OptLrc.Fetch OptLrc.Lookup OptLrc.Stored OptLrc.Writes OptLrc.Updates
open OptLrc.Keys OptLrc.Contents OptLrc.Arrival OptLrc.Decode OptLrc.Split

/-- Every block of an object that is there is the one that the encoder stores. -/
def Intact (V : CodingMatrix) (n k r : Nat) (place : Nat → Nat) (key : Key) (value : Block) (w : World) :
    Prop :=
  ∀ p < n, ∀ item, w (place p) (blockKey key p) = some item → item.value = storedBlock V n k r value p

variable {V : CodingMatrix} {n k r : Nat} {value : Block} {key : Key}

/-- What the fetch loop of a repair has collected of local group `i`. -/
structure GroupState (V : CodingMatrix) (n k r : Nat) (value : Block) (i : Nat) (done : List Nat)
    (st : Group) : Prop where
  length : st.subValues.length = groupCount n r i
  sub : ∀ j < groupCount n r i, st.subValues[j]? =
    some (if j ∈ done then some (groupBlock V n k r value i j) else none)
  coding : st.codingPtrs = [if groupCount n r i ∈ done then
    some (groupBlock V n k r value i (groupCount n r i)) else none]
  blockSize : st.blockSize = determineBlockSizeRs value.length k
  lastSize : st.lastSize = value.length - determineBlockSizeRs value.length k * (k - 1)

section Fold

variable (hv : Valid n k r) (hn : n ≤ maxNodes) (hnul : (0 : Byte) ∉ key) {i : Nat}
  (hi : i < localGroupNumber n r)
include hv hn hnul hi

theorem storeGroup_eq {done : List Nat} {st : Group} (hst : GroupState V n k r value i done st) {j : Nat}
    (hj : j ≤ groupCount n r i) {item : Item}
    (hitem : item.value = storedBlock V n k r value (j + i * (r + 1))) :
    ∃ st', storeGroup key.length (i * (r + 1)) (groupCount n r i + 1) (lastDataIndex k r)
        (blockKeys key (fun j => j + i * (r + 1)) (groupCount n r i + 1)) st
        (arrival key (fun j => j + i * (r + 1)) (j, item)) = .ok st' ∧
      GroupState V n k r value i (j :: done) st' := by
  have hn' : n ≤ 20 := hn
  have hlt : ∀ j < groupCount n r i + 1, j + i * (r + 1) < n := fun j hj => by
    have := group_lt hv.r_pos hi (show j ≤ groupCount n r i by omega)
    omega
  have hmatch := matchKey_blockKey hnul (fun j => j + i * (r + 1))
    (fun j hj => by have := hlt j hj; omega) (fun a _ b _ h => by simpa using h)
    (show j < groupCount n r i + 1 by omega)
  have hlen := length_storedBlock V n hv.k_pos r value (j + i * (r + 1))
  have hcopy := copyBlock_storedBlock (V := V) hv value (j + i * (r + 1))
  rw [← hitem] at hlen hcopy
  have hst1 : (if j + i * (r + 1) = lastDataIndex k r then
      ({ st with lastSize := item.value.length } : Group) else
      { st with blockSize := item.value.length }) = st := by
    split
    · next h => rw [hlen, if_pos h, ← hst.lastSize]
    · next h => rw [hlen, if_neg h, ← hst.blockSize]
  have hblock : fullBlock V n k r value (j + i * (r + 1)) = groupBlock V n k r value i j := by
    rw [groupBlock, Nat.add_comm]
  simp only [storeGroup, arrival]
  rw [show blockKeys key (fun j => j + i * (r + 1)) (groupCount n r i + 1) =
    (List.range (groupCount n r i + 1)).map (fun j => blockKey key (j + i * (r + 1))) from rfl, hmatch]
  simp only [ok_bind, hst1]
  simp only [hst.blockSize, hcopy, hblock, ok_bind, Nat.add_sub_cancel]
  rcases Nat.lt_or_ge j (groupCount n r i) with hjc | hjc
  · rw [if_neg (by omega), Cells.write_eq _ (by rw [hst.length]; exact hjc)]
    refine ⟨_, rfl, ⟨by simpa using hst.length, fun t ht => ?_, ?_, rfl, hst.lastSize⟩⟩
    · by_cases h : t = j
      · subst h
        simp [hst.length, ht]
      · simp only [List.getElem?_set_ne (Ne.symm h), hst.sub t ht, List.mem_cons, h, false_or]
    · have : groupCount n r i ≠ j := by omega
      simpa [this] using hst.coding
  · have hje : j = groupCount n r i := by omega
    rw [if_pos hje, Cells.write_eq _ (by simp [hst.coding])]
    refine ⟨_, rfl, ⟨hst.length, fun t ht => ?_, ?_, rfl, hst.lastSize⟩⟩
    · have : t ≠ j := by omega
      simpa [this] using hst.sub t ht
    · simp [hst.coding, hje]

end Fold

/-- The buffers of the decoder: the block to repair is cleared. -/
def clearedCoding (st : Group) (count e : Nat) : Except Fault (Cells Block) :=
  if e = count then st.codingPtrs.write 0 (zeroBlock st.blockSize) else .ok st.codingPtrs

def clearedData (st : Group) (count e : Nat) : Except Fault (Cells Block) :=
  if e = count then .ok st.subValues else st.subValues.write e (zeroBlock st.blockSize)

section Decoding

variable {i : Nat} {done : List Nat} {st : Group} {e : Nat}

theorem cleared_eq (hst : GroupState V n k r value i done st) (he : e ≤ groupCount n r i) :
    ∃ coding sub, clearedCoding st (groupCount n r i) e = .ok coding ∧
      clearedData st (groupCount n r i) e = .ok sub ∧
      coding[0]? = some (if e = groupCount n r i then some (zeroBlock (determineBlockSizeRs value.length k))
        else if groupCount n r i ∈ done then some (groupBlock V n k r value i (groupCount n r i)) else none) ∧
      (∀ j < groupCount n r i, j ≠ e → sub[j]? =
        some (if j ∈ done then some (groupBlock V n k r value i j) else none)) ∧
      (e < groupCount n r i → sub[e]? = some (some (zeroBlock (determineBlockSizeRs value.length k)))) := by
  unfold clearedCoding clearedData
  by_cases hec : e = groupCount n r i
  · rw [if_pos hec, if_pos hec, Cells.write_eq _ (by simp [hst.coding])]
    exact ⟨_, _, rfl, rfl, by simp [hst.coding, hst.blockSize, hec], fun j hj _ => hst.sub j hj, by omega⟩
  · have hlt : e < st.subValues.length := by
      rw [hst.length]
      omega
    rw [if_neg hec, if_neg hec, Cells.write_eq _ hlt]
    refine ⟨_, _, rfl, rfl, by simp [hst.coding, hec], fun j hj hne => ?_, fun _ => ?_⟩
    · rw [List.getElem?_set_ne (Ne.symm hne), hst.sub j hj]
    · simp [hlt, hst.blockSize]

/-- With the other blocks of its group at hand, a block is decoded. -/
theorem decode_group (hV : FirstRowOnes V) (hv : Valid n k r) (hn : n ≤ maxNodes)
    (hi : i < localGroupNumber n r) (hst : GroupState V n k r value i done st)
    (he : e ≤ groupCount n r i) (hdone : ∀ j ≤ groupCount n r i, j ≠ e → j ∈ done) :
    ∃ coding sub block sub' coding', clearedCoding st (groupCount n r i) e = .ok coding ∧
      clearedData st (groupCount n r i) e = .ok sub ∧
      coding.read 0 = .ok block ∧ block.length = st.blockSize ∧
      decodingParityPtrsLrc V sub (groupCount n r i) coding st.blockSize e = .ok (sub', coding') ∧
      (if e = groupCount n r i then coding'.read 0 else sub'.read e) =
        .ok (groupBlock V n k r value i e) := by
  obtain ⟨coding, sub, hc, hd, hcoding, hsub, hzero⟩ := cleared_eq hst he
  have hgroup := localGroup_groupBlock (V := V) hv value hi
  have hle := groupCount_le n r i
  have hones : ∀ j < groupCount n r i, V (groupCount n r i) 1 0 j = 1 := by
    have := group_lt hv.r_pos hi le_rfl
    exact localOnes hV hn _ (by omega)
  have h8 := dvd_determineBlockSizeRs value.length hv.k_pos
  rw [hst.blockSize]
  by_cases hec : e = groupCount n r i
  · subst hec
    rw [if_pos rfl] at hcoding
    have hdec := decode_parity hones h8 hgroup (fun j hj => by
      rw [hsub j hj (by omega), if_pos (hdone j (by omega) (by omega))]) hcoding
    refine ⟨coding, sub, _, _, _, hc, hd, Cells.read_eq hcoding, length_zeroBlock _, hdec, ?_⟩
    rw [if_pos rfl]
    exact Cells.read_eq (by simp [(List.getElem?_eq_some_iff.mp hcoding).1])
  · have hlt : e < groupCount n r i := by omega
    rw [if_neg hec, if_pos (hdone _ le_rfl (Ne.symm hec))] at hcoding
    have hdec := decode_data hones h8 hgroup hlt (fun j hj hne => by
      rw [hsub j hj hne, if_pos (hdone j (by omega) hne)]) (hzero hlt) hcoding
    refine ⟨coding, sub, _, _, _, hc, hd, Cells.read_eq hcoding, hgroup.length _ le_rfl, hdec, ?_⟩
    rw [if_neg hec]
    exact Cells.read_eq (by simp [(List.getElem?_eq_some_iff.mp (hzero hlt)).1])

theorem decode_group_missing (hV : FirstRowOnes V) (hv : Valid n k r) (hn : n ≤ maxNodes)
    (hi : i < localGroupNumber n r) (hst : GroupState V n k r value i done st)
    (he : e ≤ groupCount n r i) {j : Nat} (hj : j ≤ groupCount n r i) (hne : j ≠ e) (hmiss : j ∉ done) :
    ∃ coding sub err, clearedCoding st (groupCount n r i) e = .ok coding ∧
      clearedData st (groupCount n r i) e = .ok sub ∧
      (∀ block, coding.read 0 = .ok block → block.length = st.blockSize) ∧
      decodingParityPtrsLrc V sub (groupCount n r i) coding st.blockSize e = .error err := by
  obtain ⟨coding, sub, hc, hd, hcoding, hsub, -⟩ := cleared_eq hst he
  have hones : ∀ j < groupCount n r i, V (groupCount n r i) 1 0 j = 1 := by
    have := group_lt hv.r_pos hi le_rfl
    exact localOnes hV hn _ (by omega)
  have hnone : if j < groupCount n r i then sub[j]? = some none else coding[0]? = some none := by
    split
    · next h => rw [hsub j h hne, if_neg hmiss]
    · next h =>
      have hjc : j = groupCount n r i := by omega
      rw [hcoding, ← hjc, if_neg (Ne.symm hne), if_neg hmiss]
  obtain ⟨err, hdec⟩ : ∃ err, decodingParityPtrsLrc V sub (groupCount n r i) coding st.blockSize e =
      .error err := decode_missing hones hj hne he hnone
  refine ⟨coding, sub, err, hc, hd, fun block hread => ?_, hdec⟩
  simp only [Cells.read, hcoding] at hread
  split at hread
  · cases hread
  · cases hread
  · next h =>
    cases hread
    rw [hst.blockSize]
    split at h
    · cases h
      exact length_zeroBlock _
    · split at h
      · cases h
        exact (localGroup_groupBlock (V := V) hv value hi).length _ le_rfl
      · cases h

end Decoding

theorem crossRackNum_ok {nodeRack : Cells Nat} {start m : Nat} (hm : 0 < m)
    (h : ∀ j < m, ∃ id, nodeRack.read (j + start) = .ok id) :
    ∃ num, crossRackNum nodeRack start m = .ok num := by
  have hrun : ∀ l : List Nat, (∀ j ∈ l, j < m) → ∀ st : Nat × Nat, ∃ st', l.foldlM (fun (st : Nat × Nat) i => do
      let rack ← nodeRack.read (i + start)
      return if st.1 ≠ rack then (rack, st.2 + 1) else st) st = Except.ok st' := by
    intro l hl
    induction l with
    | nil => exact fun st => ⟨st, rfl⟩
    | cons j l ih =>
      intro st
      obtain ⟨id, hid⟩ := h j (hl j (by simp))
      rw [List.foldlM_cons, hid]
      exact ih (fun t ht => hl t (by simp [ht])) _
  obtain ⟨first, hf⟩ := h 0 hm
  obtain ⟨st, hst⟩ := hrun (List.range m) (fun j hj => List.mem_range.mp hj) (first, 0)
  refine ⟨st.2, ?_⟩
  rw [Nat.zero_add] at hf
  rw [crossRackNum, hf, ok_bind, hst]
  rfl

section Exec

variable {σ : Type} {E : Env Request Reply σ} {view : σ → World} {c : Client} {x : σ}
  {place : Nat → Nat} {i : Nat}

theorem groupNumber_eq (hr : 1 ≤ r) (hi : i < localGroupNumber n r) :
    (if n < (r + 1) * (i + 1) then n - i * (r + 1) else r + 1) = groupCount n r i + 1 := by
  have e : (r + 1) * (i + 1) = (i + 1) * (r + 1) := Nat.mul_comm _ _
  have e' : (i + 1) * (r + 1) = i * (r + 1) + r + 1 := by ring
  rcases group_cases hr i hi with h | h
  · rw [if_neg (by omega), h.2.2]
  · rw [if_pos (by omega)]
    omega

/-- The fetch loop of a repair of group `i`. -/
def fetchGroup (key : Key) (valueLength k r i count : Nat) : Prog Group :=
  fetchEach (storeGroup key.length (i * (r + 1)) (count + 1) (lastDataIndex k r)
    (blockKeys key (fun j => j + i * (r + 1)) (count + 1))) (count + 1)
    ⟨Cells.new count, Cells.new 1, determineBlockSizeRs valueLength k,
      sizeSub valueLength (determineBlockSizeRs valueLength k * (k - 1)), none⟩

/-- What a repair has fetched of its group. -/
theorem exec_fetch_group (hE : Storing E view) (hp : Placed c place) (hs : Io.Synced c.serverCount c.io)
    (hnul : (0 : Byte) ∉ key) (hkey : key.length ≤ 248)
    (hi : i < localGroupNumber c.numberOfN c.numberOfR) (hval : Splits c.numberOfK value)
    (hint : Intact V c.numberOfN c.numberOfK c.numberOfR place key value (view x)) :
    ∃ io y io' z done st,
      (memcachedMget (blockKeys key (fun j => j + i * (c.numberOfR + 1))
        (groupCount c.numberOfN c.numberOfR i + 1))).exec E c x =
          (.ok (.success, { c with io := io }), y) ∧
      (fetchGroup key value.length c.numberOfK c.numberOfR i (groupCount c.numberOfN c.numberOfR i)).exec E
        { c with io := io } y = (.ok (st, { c with io := io' }), z) ∧
      Io.Synced c.serverCount io' ∧ view z = view x ∧
      GroupState V c.numberOfN c.numberOfK c.numberOfR value i done st ∧
      ∀ j ≤ groupCount c.numberOfN c.numberOfR i, j ∈ done ↔
        ∃ item, view x (place (j + i * (c.numberOfR + 1))) (blockKey key (j + i * (c.numberOfR + 1))) =
          some item := by
  have hv := hp.valid
  have hpos : ∀ j < groupCount c.numberOfN c.numberOfR i + 1,
      (fun j => j + i * (c.numberOfR + 1)) j < c.numberOfN := fun j hj => by
    have := group_lt hv.r_pos hi (show j ≤ groupCount c.numberOfN c.numberOfR i by omega)
    simp only
    omega
  obtain ⟨io, io', z, done, st, hmget, hfetch, hs', hpicks, hst, hdone⟩ := exec_fetch_invariant hp hpos (x := x)
    hE hs hkey (by omega)
    (storeGroup key.length (i * (c.numberOfR + 1)) (groupCount c.numberOfN c.numberOfR i + 1)
      (lastDataIndex c.numberOfK c.numberOfR) (blockKeys key (fun j => j + i * (c.numberOfR + 1))
        (groupCount c.numberOfN c.numberOfR i + 1)))
    ⟨Cells.new (groupCount c.numberOfN c.numberOfR i), Cells.new 1,
      determineBlockSizeRs value.length c.numberOfK, sizeSub value.length
      (determineBlockSizeRs value.length c.numberOfK * (c.numberOfK - 1)), none⟩
    (I := GroupState V c.numberOfN c.numberOfK c.numberOfR value i)
    ⟨by simp, fun j hj => by simp [Cells.new, hj], by simp [Cells.new], rfl, sizeSub_lastSize hval⟩
    (fun done st j item hj hitem hst => storeGroup_eq hv hp.small hnul hi hst (Nat.lt_succ_iff.mp hj)
      (hint _ (hpos j hj) item hitem))
  refine ⟨io, _, io', z, done, st, hmget, hfetch, hs', ?_, hst, fun j hj => hdone j (by omega)⟩
  rw [view_picks hE hpicks, view_mgetState hE]

theorem rack_of_group (hp : Placed c place) (hi : i < localGroupNumber c.numberOfN c.numberOfR) :
    ∃ num, crossRackNum c.nodeRack (i * (c.numberOfR + 1)) (groupCount c.numberOfN c.numberOfR i + 1) =
      .ok num := by
  refine crossRackNum_ok (by omega) (fun j hj => hp.rack _ ?_)
  have := group_lt hp.valid.r_pos hi (show j ≤ groupCount c.numberOfN c.numberOfR i by omega)
  omega

/-- The size with which a block is written back. -/
theorem take_groupBlock {e size last : Nat} (hsize : size = determineBlockSizeRs value.length k)
    (hlast : last = value.length - determineBlockSizeRs value.length k * (k - 1)) :
    (groupBlock V n k r value i e).take (if i * (r + 1) + e = lastDataIndex k r then last else size) =
      storedBlock V n k r value (i * (r + 1) + e) := by
  unfold storedBlock
  simp only
  split
  · rw [hlast, groupBlock]
  · rw [hsize, groupBlock, List.take_of_length_le (by rw [length_fullBlock])]

theorem not_isParity_last (hv : Valid n k r) (hi : i < localGroupNumber n r) :
    i * (r + 1) + groupCount n r i ≠ lastDataIndex k r := by
  intro h
  have hk := hv.k_pos
  have hpar := isParity_parityPosition hv.r_pos i hi
  rw [parityPosition, h, lastDataIndex_eq hk] at hpar
  exact (position_spec hv.r_pos (k - 1) (data_lt hv (by omega))).1 hpar

/-- What is left of a repair when its group has been fetched. -/
def decodeGroup (V : CodingMatrix) (key : Key) (k r i count e num : Nat) (st : Group) :
    Prog (ReturnCode × Option (Block × Nat × Option Nat)) := do
  let coding ← Proc.lift (clearedCoding st count e)
  let sub ← Proc.lift (clearedData st count e)
  crossTimes (blockKey key (count + i * (r + 1))) coding st.blockSize num
  let (sub, coding) ← Proc.lift (decodingParityPtrsLrc V sub count coding st.blockSize e)
  let block ← Proc.lift (if e = count then coding.read 0 else sub.read e)
  let size := if i * (r + 1) + e = lastDataIndex k r ∧ e ≠ count then st.lastSize else st.blockSize
  return (.success, some (block, size, st.flags))

/-- A repair of block `e` of group `i`, with the number of transfers through the core. -/
def rebuildGroup (V : CodingMatrix) (key : Key) (valueLength k r i count e num : Nat) :
    Prog (ReturnCode × Option (Block × Nat × Option Nat)) := do
  let rc ← memcachedMget (blockKeys key (fun j => j + i * (r + 1)) (count + 1))
  if rc = .success then
    let st ← fetchGroup key valueLength k r i count
    decodeGroup V key k r i count e num st
  else return (rc, none)

theorem exec_rebuild_eq (hp : Placed c place) (key : Key) (valueLength : Nat)
    (hi : i < localGroupNumber c.numberOfN c.numberOfR) {e : Nat} (he : e ≤ groupCount c.numberOfN c.numberOfR i) :
    ∃ num, (rebuild V key valueLength (i * (c.numberOfR + 1) + e)).exec E c x =
      (rebuildGroup V key valueLength c.numberOfK c.numberOfR i (groupCount c.numberOfN c.numberOfR i) e num).exec
        E c x := by
  have hle := groupCount_le c.numberOfN c.numberOfR i
  have hdiv : (i * (c.numberOfR + 1) + e) / (c.numberOfR + 1) = i := group_div (by omega)
  have hsub : i * (c.numberOfR + 1) + e - i * (c.numberOfR + 1) = e := by omega
  obtain ⟨num, hnum⟩ := rack_of_group hp hi
  refine ⟨num, ?_⟩
  unfold rebuild
  rw [Proc.exec_bind, Proc.exec_get]
  simp only [hdiv, hsub, groupNumber_eq hp.valid.r_pos hi, hnum, Nat.add_sub_cancel]
  rfl

end Exec

end OptLrc.Rebuild
