import OptLrc.Storage

namespace OptLrc.Retrieval

open OptLrc.Galois OptLrc.Memory OptLrc.Jerasure OptLrc.Encoder OptLrc.Process OptLrc.Memcached
open OptLrc.Exchange OptLrc.Storage

variable {β : Type}

/-- Fetch `m` times; each result that arrives goes through `body`. -/
def fetchEach (body : β → Result → Except Fault β) : Nat → β → Prog β
  | 0, st => pure st
  | m + 1, st => do
    let (result, _) ← memcachedFetchResult
    match result with
    | some result =>
      let st ← Proc.lift (body st result)
      fetchEach body m st
    | none => fetchEach body m st

def cString (key : Key) : Key := key.takeWhile (· ≠ 0)

/-- The index of the key that a reply carries, by `strcmp` on a copy with room for the keys
that were asked for. -/
def matchKey (keyLength : Nat) (keys : List Key) (itemKey : Key) : Except Fault Nat :=
  if itemKey.length = keyLength + 2 then .ok (keys.findIdx (fun key => cString itemKey = cString key))
  else if keyLength + 2 < itemKey.length then .error .outOfBounds
  else .error .uninitialised

/-- `new char[blockSize]`, cleared, then the value copied in. -/
def copyBlock (blockSize : Nat) (value : Block) : Except Fault Block :=
  writeRange (zeroBlock blockSize) 0 value

/-- The variables of the first fetch of `memcached_get_lrc`. -/
structure Fetched where
  subValues : Cells Block
  nodeFail : List Bool
  blockSize : Nat
  lastSize : Nat
  flags : Option Nat

def storeFetched (keyLength k : Nat) (keys : List Key) (st : Fetched) (result : Result) :
    Except Fault Fetched := do
  let i ← matchKey keyLength keys result.itemKey
  let blockSize := if i = 0 then result.value.length else st.blockSize
  let lastSize := if i = k - 1 then result.value.length else st.lastSize
  let block ← copyBlock blockSize result.value
  let subValues ← st.subValues.write i block
  return ⟨subValues, st.nodeFail.set i false, blockSize, lastSize, some result.itemFlags⟩

/-- The last data block that did not arrive, or `n`. -/
def failIndex (n : Nat) (nodeFail : List Bool) : Nat :=
  (List.range nodeFail.length).foldl (fun fail i => if nodeFail[i]? = some true then i else fail) n

/-- The positions of the local group that starts at `start`, and the rack changes among them. -/
structure Gathered where
  firstRack : Nat
  crossRackNum : Nat
  dataPtrs : Cells Block
  stopped : Bool

/-- One turn of the loop that collects the data blocks of the group to repair. -/
def gatherStep (nodeRack : Cells Nat) (start groupStart lastIndex : Nat) (subValues : Cells Block)
    (st : Gathered) (bi : Nat) : Except Fault Gathered := do
  if st.stopped then return st
  else
    let rack ← nodeRack.read bi
    let st := if st.firstRack ≠ rack then
        { st with firstRack := rack, crossRackNum := st.crossRackNum + 1 }
      else st
    if bi ≤ lastIndex then
      let p ← subValues.cell (bi - start + groupStart)
      return { st with dataPtrs := ← st.dataPtrs.put (bi - start) p }
    else return { st with stopped := true }

def gatherGroup (nodeRack : Cells Nat) (start groupStart repairNumber lastIndex : Nat)
    (subValues : Cells Block) : Except Fault Gathered := do
  let st ← (List.range (repairNumber - 1)).foldlM
    (fun st ii => gatherStep nodeRack start groupStart lastIndex subValues st (start + ii))
    ⟨← nodeRack.read start, 0, Cells.new repairNumber, false⟩
  let rack ← nodeRack.read (start + repairNumber - 1)
  return if st.firstRack ≠ rack then { st with crossRackNum := st.crossRackNum + 1 } else st

/-- The variables of the second fetch. -/
structure Decoding where
  dataPtrs : Cells Block
  codingPtrs : Cells Block
  flags : Option Nat

def storeParity (keyLength repairNumber toFetch blockSize : Nat) (keys : List Key) (st : Decoding)
    (result : Result) : Except Fault Decoding := do
  let i ← matchKey keyLength keys result.itemKey
  if i = toFetch - 1 then
    if result.value.length < blockSize then throw .outOfBounds
    else
      let codingPtrs ← st.codingPtrs.write 0 result.value
      return { st with codingPtrs := codingPtrs, flags := some result.itemFlags }
  else
    let block ← copyBlock blockSize result.value
    let dataPtrs ← st.dataPtrs.write (repairNumber - toFetch + i) block
    return { st with dataPtrs := dataPtrs, flags := some result.itemFlags }

def setNumberOfB (b : Nat) : Prog Unit := Proc.modify (fun c => { c with numberOfB := b })

/-- A set that bypasses the code and goes to the server of `fail_node_index`. -/
def writeBack (V : CodingMatrix) (key : Key) (block : Block) (size : Nat) : Prog Unit := do
  setNumberOfB 0
  let value ← Proc.lift (readRange block 0 size)
  let _ ← memcachedSet V key value 86400 0
  setNumberOfB 1

/-- Send the same block through the core a number of times. -/
def crossTimes (key : Key) (ptrs : Cells Block) (size m : Nat) : Prog Unit :=
  Proc.each (fun _ => do
    let block ← Proc.lift (ptrs.read 0)
    let value ← Proc.lift (readRange block 0 size)
    crossNetworkcore key value) (List.range m)

def toFetch (k r fail repairNumber : Nat) : Nat :=
  if k % r ≠ 0 ∧ fail / r = (k - 1) / r then repairNumber - (k - fail / r * r) else 1

def repairNumber (n r groupId : Nat) : Nat :=
  if n < (groupId + 1) * (r + 1) then n - groupId * (r + 1) else r + 1

/-- The keys of the second fetch. -/
def parityKeys (key : Key) (k r fail repairNumber : Nat) : List Key :=
  (List.range (toFetch k r fail repairNumber)).map
    (fun bi => blockKey key (fail / r * (r + 1) + r + bi))

/-- The degraded path: fetch the rest of the group of the lost block, decode it and store it
again. -/
def repairData (V : CodingMatrix) (key : Key) (fail : Nat) (st : Fetched) : Prog Fetched := do
  Proc.modify (fun c => { c with failNodeIndex := fail + fail / c.numberOfR })
  let c ← Proc.get
  let k := c.numberOfK
  let r := c.numberOfR
  let groupId := fail / r
  let repairNumber := repairNumber c.numberOfN r groupId
  let toFetch := toFetch k r fail repairNumber
  let erased := fail - r * groupId
  let subValues ← Proc.lift (st.subValues.write fail (zeroBlock st.blockSize))
  let gathered ← Proc.lift (gatherGroup c.nodeRack (groupId * (r + 1)) (groupId * r) repairNumber
    (lastDataIndex k r) subValues)
  let keys := parityKeys key k r fail repairNumber
  let rc ← memcachedMget keys
  let decoding : Decoding := ⟨gathered.dataPtrs, Cells.new 1, st.flags⟩
  let decoding ← if rc = .success then
      fetchEach (storeParity key.length repairNumber toFetch st.blockSize keys) toFetch decoding
    else pure decoding
  crossTimes (blockKey key (groupId * (r + 1) + r)) decoding.codingPtrs st.blockSize
    gathered.crossRackNum
  let dataPtrs ← Proc.lift (decoding.dataPtrs.write erased (zeroBlock st.blockSize))
  let (dataPtrs, _) ← Proc.lift (decodingParityPtrsLrc V dataPtrs (repairNumber - 1)
    decoding.codingPtrs st.blockSize erased)
  let block ← Proc.lift (dataPtrs.read erased)
  writeBack V (blockKey key (fail + fail / r)) block
    (if fail = k - 1 then st.lastSize else st.blockSize)
  let subValues ← Proc.lift (subValues.write fail block)
  return { st with subValues := subValues, flags := decoding.flags }

/-- Copy the data blocks into the buffer of the result. -/
def reassemble (k valueLength : Nat) (st : Fetched) : Except Fault (Cells Byte) := do
  alloc valueLength
  (List.range k).foldlM (fun temp i => do
    let block ← st.subValues.read i
    let bytes ← readRange block 0 (if i < k - 1 then st.blockSize else st.lastSize)
    writeRange temp (i * st.blockSize) (bytes.map some)) (Cells.new valueLength)

/-- What a get returns: the buffer, `*value_length`, `*error` and `*flags`. -/
structure GetResult where
  value : Option (Cells Byte)
  valueLength : Nat
  error : ReturnCode
  flags : Option Nat

/-- `memcached_get_lrc`. -/
def memcachedGetLrc (V : CodingMatrix) (key : Key) (valueLength : Nat) : Prog GetResult := do
  let c ← Proc.get
  let k := c.numberOfK
  let r := c.numberOfR
  let blockSize := determineBlockSizeRs valueLength k
  let keys := (List.range k).map (fun i => blockKey key (i + i / r))
  let rc ← memcachedMget keys
  if rc = .success then
    let st ← fetchEach (storeFetched key.length k keys) k
      ⟨Cells.new k, List.replicate k true, blockSize, sizeSub valueLength (blockSize * (k - 1)), none⟩
    let fail := failIndex c.numberOfN st.nodeFail
    Proc.each (fun i => do
      if i ≠ fail then
        let block ← Proc.lift (st.subValues.read i)
        let value ← Proc.lift (readRange block 0 st.blockSize)
        crossNetworkcore (blockKey key (i + i / r)) value) (List.range k)
    let st ← if fail ≠ c.numberOfN then repairData V key fail st else pure st
    let value ← Proc.lift (reassemble k valueLength st)
    return ⟨some value, valueLength, .success, st.flags⟩
  else return ⟨none, valueLength, rc, none⟩

def memcachedGet (V : CodingMatrix) (key : Key) (valueLength : Nat) : Prog GetResult := do
  let c ← Proc.get
  if c.lrcMode then memcachedGetLrc V key valueLength
  else
    let (result, rc) ← memcachedGetByKey key
    match result with
    | some result => return ⟨some (result.value.map some), result.value.length, rc, some result.itemFlags⟩
    | none => return ⟨none, 0, rc, some 0⟩

end OptLrc.Retrieval
