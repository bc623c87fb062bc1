import OptLrc.Jerasure

namespace OptLrc.Encoder

open OptLrc.Galois OptLrc.Memory OptLrc.Jerasure

abbrev Key := List Byte

def determineBlockSizeRs (valueLength k : Nat) : Nat :=
  let mod := valueLength % (k * 8)
  if mod = 0 then valueLength / k else (valueLength + k * 8 - mod) / k

def fillStep (blockSize : Nat) (value : Block) (st : Nat × Cells Block) (i : Nat) :
    Except Fault (Nat × Cells Block) := do
  let len := if blockSize ≤ st.1 then blockSize else st.1
  let bytes ← readRange value (i * blockSize) len
  let dst ← writeRange (← st.2.read i) 0 bytes
  return (st.1 - len, ← st.2.write i dst)

/-- The value split over `size` zeroed blocks, with the bytes that are left at the end. -/
def fillDataPtrs (size blockSize : Nat) (value : Block) : Except Fault (Nat × Cells Block) :=
  (List.range size).foldlM (fillStep blockSize value)
    (value.length, Cells.filled size (zeroBlock blockSize))

/-- One turn of `generate_new_keys_rs`: the key, then two decimal digits. -/
def blockKey (key : Key) (i : Nat) : Key :=
  key ++ [Byte.ofNat (48 + i / 10), Byte.ofNat (48 + (i - i / 10 * 10))]

def localGroupNumber (n r : Nat) : Nat := (n + r) / (r + 1)

def globalNumber (n k r : Nat) : Nat := n - localGroupNumber n r - k

def lastDataIndex (k r : Nat) : Nat := k + (k - 1) / r - 1

def placeSource (k r i : Nat) (dataPtrs globalPtrs : Cells Block)
    (st : Cells Block × Cells Block) (ii : Nat) : Except Fault (Cells Block × Cells Block) := do
  let index := i * r + ii
  let p ← if index < k then dataPtrs.read index else globalPtrs.read (index - k)
  return (← st.1.write ii p, ← st.2.write (i * (r + 1) + ii) p)

/-- Fill one local group and put its parity at `parityPos`. -/
def placeGroup (V : CodingMatrix) (k r i blockSize : Nat) (dataPtrs globalPtrs allBlocks : Cells Block)
    (count parityPos : Nat) : Except Fault (Cells Block) := do
  let st ← (List.range count).foldlM (placeSource k r i dataPtrs globalPtrs)
    (Cells.new count, allBlocks)
  let coding ← calculateParityPtrsRs V st.1 count (Cells.filled 1 (zeroBlock blockSize)) 1 blockSize
  st.2.write parityPos (← coding.read 0)

/-- One turn of the group loop, over `remain` and `all_blocks`. -/
def groupStep (V : CodingMatrix) (n k r blockSize : Nat) (dataPtrs globalPtrs : Cells Block)
    (st : Nat × Cells Block) (i : Nat) : Except Fault (Nat × Cells Block) := do
  if r ≤ st.1 then
    return (st.1 - r, ← placeGroup V k r i blockSize dataPtrs globalPtrs st.2 r (i * (r + 1) + r))
  else
    return (st.1, ← placeGroup V k r i blockSize dataPtrs globalPtrs st.2 st.1 (n - 1))

def groupLoop (V : CodingMatrix) (n k r blockSize : Nat) (dataPtrs globalPtrs : Cells Block) :
    Except Fault (Cells Block) := do
  let st ← (List.range (localGroupNumber n r)).foldlM
    (groupStep V n k r blockSize dataPtrs globalPtrs)
    (k + globalNumber n k r, Cells.filled n (zeroBlock blockSize))
  return st.2

/-- The stripe `all_blocks` of `memcached_lrc_send_binary`. -/
def allBlocks (V : CodingMatrix) (n k r blockSize : Nat) (dataPtrs : Cells Block) :
    Except Fault (Cells Block) := do
  let g := globalNumber n k r
  let globalPtrs ← calculateParityPtrsRs V dataPtrs k (Cells.filled g (zeroBlock blockSize)) g blockSize
  groupLoop V n k r blockSize dataPtrs globalPtrs

/-- The same layout with any `global` coding matrix in the place of Jerasure's. -/
def allBlocksWith (V : CodingMatrix) (global : Nat → Nat → Byte) (n k r blockSize : Nat)
    (dataPtrs : Cells Block) : Except Fault (Cells Block) := do
  let g := globalNumber n k r
  let globalPtrs ← jerasureMatrixEncode k g global dataPtrs (Cells.filled g (zeroBlock blockSize)) blockSize
  groupLoop V n k r blockSize dataPtrs globalPtrs

theorem allBlocks_eq_allBlocksWith (V : CodingMatrix) (n k r blockSize : Nat)
    (dataPtrs : Cells Block) : allBlocks V n k r blockSize dataPtrs =
      allBlocksWith V (V k (globalNumber n k r)) n k r blockSize dataPtrs := rfl

end OptLrc.Encoder
