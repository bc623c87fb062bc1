import OptLrc.Retrieval

namespace OptLrc.Repair

open OptLrc.Galois OptLrc.Memory OptLrc.Jerasure OptLrc.Encoder OptLrc.Process OptLrc.Memcached
open OptLrc.Exchange OptLrc.Storage OptLrc.Retrieval

/-- The variables of the fetch loop of `memcached_repair_by_index`. -/
structure Group where
  subValues : Cells Block
  codingPtrs : Cells Block
  blockSize : Nat
  lastSize : Nat
  flags : Option Nat

def storeGroup (keyLength start groupNumber lastIndex : Nat) (keys : List Key) (st : Group)
    (result : Result) : Except Fault Group := do
  let i ← matchKey keyLength keys result.itemKey
  let st := if i + start = lastIndex then { st with lastSize := result.value.length }
    else { st with blockSize := result.value.length }
  let block ← copyBlock st.blockSize result.value
  if i = groupNumber - 1 then
    return { st with codingPtrs := ← st.codingPtrs.write 0 block, flags := some result.itemFlags }
  else
    return { st with subValues := ← st.subValues.write i block, flags := some result.itemFlags }

/-- The number of rack changes along the positions of a group. -/
def crossRackNum (nodeRack : Cells Nat) (start groupNumber : Nat) : Except Fault Nat := do
  let st ← (List.range groupNumber).foldlM (fun (st : Nat × Nat) i => do
    let rack ← nodeRack.read (i + start)
    return if st.1 ≠ rack then (rack, st.2 + 1) else st) (← nodeRack.read start, 0)
  return st.2

/-- `memcached_repair_by_index`, up to the write-back: the block to store and its size. -/
def rebuild (V : CodingMatrix) (key : Key) (valueLength fail : Nat) :
    Prog (ReturnCode × Option (Block × Nat × Option Nat)) := do
  let c ← Proc.get
  let n := c.numberOfN
  let k := c.numberOfK
  let r := c.numberOfR
  let groupId := fail / (r + 1)
  let start := groupId * (r + 1)
  let groupNumber := if n < (r + 1) * (groupId + 1) then n - start else r + 1
  let keys := (List.range groupNumber).map (fun i => blockKey key (i + start))
  let blockSize := determineBlockSizeRs valueLength k
  let erased := fail - start
  let lastIndex := lastDataIndex k r
  let rc ← memcachedMget keys
  if rc = .success then
    let crossNum ← Proc.lift (crossRackNum c.nodeRack start groupNumber)
    let st ← fetchEach (storeGroup key.length start groupNumber lastIndex keys) groupNumber
      ⟨Cells.new (groupNumber - 1), Cells.new 1, blockSize,
        sizeSub valueLength (blockSize * (k - 1)), none⟩
    let codingPtrs ← Proc.lift (if erased = groupNumber - 1 then
      st.codingPtrs.write 0 (zeroBlock st.blockSize) else .ok st.codingPtrs)
    let subValues ← Proc.lift (if erased = groupNumber - 1 then .ok st.subValues
      else st.subValues.write erased (zeroBlock st.blockSize))
    crossTimes (blockKey key (groupNumber - 1 + start)) codingPtrs st.blockSize crossNum
    let (subValues, codingPtrs) ← Proc.lift (decodingParityPtrsLrc V subValues (groupNumber - 1)
      codingPtrs st.blockSize erased)
    let block ← Proc.lift (if erased = groupNumber - 1 then codingPtrs.read 0
      else subValues.read erased)
    let size := if fail = lastIndex ∧ erased ≠ groupNumber - 1 then st.lastSize else st.blockSize
    return (.success, some (block, size, st.flags))
  else return (rc, none)

/-- `memcached_repair`: `*error` and `*flags`. -/
def memcachedRepair (V : CodingMatrix) (key : Key) (valueLength fail : Nat) :
    Prog (ReturnCode × Option Nat) := do
  let (rc, rebuilt) ← rebuild V key valueLength fail
  match rebuilt with
  | some (block, size, flags) =>
    Proc.modify (fun c => { c with failNodeIndex := fail })
    writeBack V (blockKey key fail) block size
    return (.success, flags)
  | none => return (rc, none)

/-- `memcached_delete_by_key_lrc`. -/
def memcachedDeleteByKeyLrc (key : Key) (expiration index : Nat) : Prog ReturnCode := do
  let rc ← initializeQuery
  if rc ≠ .success then return rc
  else if ¬ memcachedKeyTest (blockKey key index) then return .badKeyProvided
  else if expiration ≠ 0 then return .invalidArguments
  else
    let c ← Proc.get
    let s ← Proc.lift (c.nodeServer index)
    memcachedVdo s (.delete (blockKey key index))
    memcachedResponse s

end OptLrc.Repair
