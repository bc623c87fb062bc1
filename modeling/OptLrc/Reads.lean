import OptLrc.Rebuild

namespace OptLrc.Reads

open OptLrc.Galois OptLrc.Memory OptLrc.Jerasure OptLrc.Encoder OptLrc.Stripe OptLrc.Split
open OptLrc.Process OptLrc.Memcached OptLrc.Exchange OptLrc.Storage OptLrc.Retrieval OptLrc.Sync
open OptLrc.Wire OptLrc.Core OptLrc.Fetch OptLrc.Lookup OptLrc.Stored OptLrc.Writes OptLrc.Keys
open OptLrc.Contents OptLrc.Arrival OptLrc.Decode OptLrc.Rebuild

variable {V : CodingMatrix} {n k r : Nat} {value : Block} {key : Key}

def lastSize (k : Nat) (value : Block) : Nat :=
  value.length - determineBlockSizeRs value.length k * (k - 1)

/-- A data block as the first fetch keeps it. The only block of an object gives the block size
itself, so that it is not padded. -/
def fetchedBlock (k : Nat) (value : Block) (s : Nat) : Block :=
  if k = 1 then value else dataBlock (determineBlockSizeRs value.length k) value s

def fetchedSize (k : Nat) (value : Block) (done : List Nat) : Nat :=
  if k = 1 ∧ 0 ∈ done then value.length else determineBlockSizeRs value.length k

theorem fetchedSize_of_ne (hk : k ≠ 1) (value : Block) (done : List Nat) :
    fetchedSize k value done = determineBlockSizeRs value.length k := if_neg (fun h => hk h.1)

/-- What the first fetch of a get has collected. -/
structure DataState (k : Nat) (value : Block) (done : List Nat) (st : Fetched) : Prop where
  length : st.subValues.length = k
  sub : ∀ s < k, st.subValues[s]? = some (if s ∈ done then some (fetchedBlock k value s) else none)
  failed : st.nodeFail = (List.range k).map (fun s => decide (s ∉ done))
  blockSize : st.blockSize = fetchedSize k value done
  lastSize : st.lastSize = lastSize k value

section Fold

theorem position_lt (hv : Valid n k r) {s : Nat} (hs : s < k) : position r s < n :=
  source_lt hv.r_pos s (data_lt hv hs)

theorem position_eq_last (hv : Valid n k r) {s : Nat} :
    position r s = lastDataIndex k r ↔ s = k - 1 := by
  rw [lastDataIndex_eq hv.k_pos]
  exact (position_strictMono r).injective.eq_iff

theorem storedBlock_single (hv : Valid n 1 r) (value : Block) :
    storedBlock V n 1 r value (position r 0) = value := by
  have hlast := lastBlock_eq (le_refl 1) value
  unfold storedBlock
  simp only
  rw [if_pos ((position_eq_last hv).mpr rfl), fullBlock_data hv value Nat.one_pos]
  simpa using hlast

/-- What a fetched block becomes. -/
theorem copyBlock_fetched (hv : Valid n k r) (value : Block) {s : Nat} (hs : s < k) (done : List Nat) :
    copyBlock (fetchedSize k value (s :: done)) (storedBlock V n k r value (position r s)) =
      .ok (fetchedBlock k value s) := by
  by_cases hk : k = 1
  · subst hk
    have h0 : s = 0 := by omega
    subst h0
    rw [storedBlock_single hv, fetchedSize, if_pos ⟨rfl, by simp⟩, fetchedBlock, if_pos rfl, copyBlock,
      writeRange_all _ _ (by simp)]
  · rw [fetchedSize_of_ne hk, copyBlock_storedBlock hv, fetchedBlock, if_neg hk,
      fullBlock_data hv value hs]

variable (hv : Valid n k r) (hn : n ≤ maxNodes) (hnul : (0 : Byte) ∉ key)
include hv hn hnul

theorem storeFetched_eq {done : List Nat} {st : Fetched} (hst : DataState k value done st) {s : Nat}
    (hs : s < k) {item : Item} (hitem : item.value = storedBlock V n k r value (position r s)) :
    ∃ st', storeFetched key.length k (blockKeys key (position r) k) st
        (arrival key (position r) (s, item)) = .ok st' ∧ DataState k value (s :: done) st' ∧
      st'.flags = some item.flags := by
  have hn' : n ≤ 20 := hn
  have hmatch := matchKey_blockKey hnul (position r)
    (fun t ht => by have := position_lt hv ht; omega) (fun a _ b _ h => (position_strictMono r).injective h) hs
  have hlen := length_storedBlock V n hv.k_pos r value (position r s)
  rw [← hitem] at hlen
  have hsize : (if s = 0 then item.value.length else st.blockSize) = fetchedSize k value (s :: done) := by
    by_cases hk : k = 1
    · subst hk
      have h0 : s = 0 := by omega
      subst h0
      rw [if_pos rfl, fetchedSize, if_pos ⟨rfl, by simp⟩, hitem, storedBlock_single hv]
    · rw [hst.blockSize, fetchedSize_of_ne hk, fetchedSize_of_ne hk]
      split
      · rw [hlen, if_neg]
        rw [position_eq_last hv]
        omega
      · rfl
  have hlast : (if s = k - 1 then item.value.length else st.lastSize) = lastSize k value := by
    split
    · next h => rw [hlen, if_pos ((position_eq_last hv).mpr h), lastSize]
    · exact hst.lastSize
  have hcopy := copyBlock_fetched (V := V) hv value hs done
  rw [← hitem] at hcopy
  simp only [storeFetched, arrival]
  rw [show blockKeys key (position r) k = (List.range k).map (fun i => blockKey key (position r i)) from rfl,
    hmatch]
  simp only [ok_bind, hsize, hlast, hcopy, Cells.write_eq _ (show s < st.subValues.length by
    rw [hst.length]; exact hs), pure_eq_ok]
  refine ⟨_, rfl, ⟨by simpa using hst.length, fun t ht => ?_, ?_, rfl, rfl⟩, rfl⟩
  · by_cases h : t = s
    · subst h
      simp [hst.length, ht]
    · simp only [List.getElem?_set_ne (Ne.symm h), hst.sub t ht, List.mem_cons, h, false_or]
  · rw [hst.failed]
    refine List.ext_getElem? (fun t => ?_)
    by_cases h : t = s
    · subst h
      simp [hs]
    · rw [List.getElem?_set_ne (Ne.symm h)]
      by_cases ht : t < k <;> simp [h, ht]

end Fold

section Reassemble

/-- The bytes of a value that data block `s` holds. -/
def piece (k : Nat) (value : Block) (s : Nat) : Block :=
  (value.drop (s * determineBlockSizeRs value.length k)).take (determineBlockSizeRs value.length k)

/-- A block from which its piece of the value can be read. -/
structure Readable (k : Nat) (value : Block) (st : Fetched) (s : Nat) : Prop where
  off : s * st.blockSize = s * determineBlockSizeRs value.length k
  read : ∃ block, st.subValues.read s = .ok block ∧
    readRange block 0 (if s < k - 1 then st.blockSize else st.lastSize) = .ok (piece k value s)

theorem writeRange_append {α : Type} (a b src : List α) (h : src.length ≤ b.length) :
    writeRange (a ++ b) a.length src = .ok (a ++ src ++ b.drop src.length) := by
  rw [writeRange, if_pos (Or.inr (by rw [List.length_append]; omega)), List.take_left, List.drop_append]
  simp

theorem writeRange_piece (size : Nat) (value : Block) {s : Nat} (hs : s * size ≤ value.length) :
    writeRange ((value.take (s * size)).map some ++ Cells.new (value.length - s * size)) (s * size)
      (((value.drop (s * size)).take size).map some) =
      .ok ((value.take ((s + 1) * size)).map some ++ Cells.new (value.length - (s + 1) * size)) := by
  have e : (s + 1) * size = s * size + size := Nat.succ_mul s size
  have hlen : ((value.take (s * size)).map some).length = s * size := by
    rw [List.length_map, List.length_take]
    omega
  have hw := writeRange_append ((value.take (s * size)).map some) (Cells.new (value.length - s * size))
    (((value.drop (s * size)).take size).map some) (by
      simp only [Cells.length_new, List.length_map, List.length_take, List.length_drop]
      omega)
  rw [hlen, ← List.map_append, ← List.take_add, ← e] at hw
  rw [hw]
  congr 2
  simp only [Cells.new, List.drop_replicate, List.length_map, List.length_take, List.length_drop]
  congr 1
  omega

/-- The pieces make up the value. -/
theorem reassemble_eq (hk : 1 ≤ k) (hval : Splits k value) {st : Fetched}
    (h : ∀ s < k, Readable k value st s) :
    reassemble k value.length st = .ok (value.map some) := by
  have hle := le_mul_determineBlockSizeRs value.length hk
  have hreach := hval.reaches
  have hrun : ∀ m ≤ k, (List.range m).foldlM (fun temp i => do
      let block ← st.subValues.read i
      let bytes ← readRange block 0 (if i < k - 1 then st.blockSize else st.lastSize)
      writeRange temp (i * st.blockSize) (bytes.map some)) (Cells.new value.length) =
      .ok ((value.take (m * determineBlockSizeRs value.length k)).map some ++
        Cells.new (value.length - m * determineBlockSizeRs value.length k)) := by
    intro m hm
    induction m with
    | zero => simp
    | succ m ih =>
      obtain ⟨hoff, block, hread, hrange⟩ := h m (by omega)
      have hmle : m * determineBlockSizeRs value.length k ≤ value.length := by
        refine le_trans ?_ hreach
        rw [Nat.mul_comm]
        exact Nat.mul_le_mul_left _ (by omega)
      rw [List.range_succ, List.foldlM_append, ih (by omega), ok_bind, List.foldlM_cons, hread, ok_bind,
        hrange, ok_bind, hoff, piece, writeRange_piece _ _ hmle, ok_bind]
      rfl
  have halloc : alloc value.length = .ok () := by
    rw [alloc, if_pos hval.fits]
  rw [reassemble, halloc, ok_bind, hrun k le_rfl, List.take_of_length_le hle]
  simp [Cells.new, Nat.sub_eq_zero_of_le hle]

theorem dataBlock_eq_piece (hval : Splits k value) {s : Nat} (hs : s < k - 1) :
    dataBlock (determineBlockSizeRs value.length k) value s = piece k value s := by
  have hreach := hval.reaches
  have hle : (s + 1) * determineBlockSizeRs value.length k ≤ value.length := by
    refine le_trans ?_ hreach
    rw [Nat.mul_comm]
    exact Nat.mul_le_mul_left _ (by omega)
  have e : (s + 1) * determineBlockSizeRs value.length k =
      s * determineBlockSizeRs value.length k + determineBlockSizeRs value.length k := Nat.succ_mul _ _
  have hlen : (piece k value s).length = determineBlockSizeRs value.length k := by
    rw [piece, List.length_take, List.length_drop]
    omega
  unfold piece at hlen ⊢
  rw [dataBlock, hlen, Nat.sub_self]
  exact List.append_nil _

theorem readable_of_fetched (hk : 1 ≤ k) (hval : Splits k value) {done : List Nat} {st : Fetched}
    (hst : DataState k value done st) {s : Nat} (hs : s < k) (hdone : s ∈ done) : Readable k value st s := by
  have hlast := lastBlock_eq hk value
  have hle := lastSize_le hk value
  have hread : st.subValues.read s = .ok (fetchedBlock k value s) :=
    Cells.read_eq (by rw [hst.sub s hs, if_pos hdone])
  by_cases hk1 : k = 1
  · subst hk1
    have h0 : s = 0 := by omega
    subst h0
    refine ⟨by simp, _, hread, ?_⟩
    have hlen : value.length ≤ determineBlockSizeRs value.length 1 := by
      simpa using le_mul_determineBlockSizeRs value.length (le_refl 1)
    rw [if_neg (by omega), hst.lastSize, fetchedBlock, if_pos rfl, lastSize, Nat.sub_self, Nat.mul_zero,
      Nat.sub_zero, readRange_all, piece, Nat.zero_mul, List.drop_zero, List.take_of_length_le hlen]
  · rw [fetchedBlock, if_neg hk1] at hread
    refine ⟨by rw [hst.blockSize, fetchedSize_of_ne hk1], _, hread, ?_⟩
    split
    · next hlt =>
      have hlen := length_dataBlock (determineBlockSizeRs value.length k) value s
      rw [hst.blockSize, fetchedSize_of_ne hk1, ← dataBlock_eq_piece hval hlt]
      nth_rewrite 2 [← hlen]
      exact readRange_all _
    · next hge =>
      have hse : s = k - 1 := by omega
      rw [hst.lastSize, lastSize, readRange_take _ _ (by rw [length_dataBlock]; exact hle), hse, hlast, piece]
      rw [List.take_of_length_le (by rw [List.length_drop, Nat.mul_comm]; exact hle)]

end Reassemble

end OptLrc.Reads
