import OptLrc.Exchange
import OptLrc.Rack

namespace OptLrc.Storage

open OptLrc.Galois OptLrc.Memory OptLrc.Jerasure OptLrc.Encoder OptLrc.Process OptLrc.Memcached
open OptLrc.Exchange OptLrc.Rack

def memcachedSendBinary (s : Nat) (key : Key) (value : Block) (expiration flags : Nat) :
    Prog ReturnCode := do
  memcachedVdo s (.set key value flags expiration)
  memcachedResponse s

/-- What `memcached_send` calls for a store through the code: the server, the key, the value,
the expiration and the flags. -/
abbrev LrcSend := Nat → Key → Block → Nat → Nat → Prog ReturnCode

/-- `memcached_send` for a set, over the function it calls in LRC mode. -/
def memcachedSendWith (lrcSend : LrcSend) (key : Key) (value : Block) (expiration flags : Nat) :
    Prog ReturnCode := do
  let rc ← initializeQuery
  if rc ≠ .success then return rc
  else if ¬ memcachedKeyTest key then return .badKeyProvided
  else
    let c ← Proc.get
    let server ← Proc.lift (c.nodeServer c.failNodeIndex)
    if c.lrcMode then lrcSend server key value expiration flags
    else if c.isCore then
      let core ← Proc.lift (c.instance c.networkCoreServerKey)
      memcachedSendBinary core key value expiration flags
    else memcachedSendBinary server key value expiration flags

def setIsCore (isCore : Bool) : Prog Unit := Proc.modify (fun c => { c with isCore := isCore })

/-- `cross_networkcore_libmemcached`: a set and a get of the block at the core. With `is_core`
set, `memcached_send` does not come to its LRC branch again. -/
def crossNetworkcore (key : Key) (value : Block) : Prog Unit := do
  setIsCore true
  let _ ← memcachedSendWith (fun _ _ _ _ _ => Proc.fault .uninitialised) key value 86400 0
  let _ ← memcachedGetByKey key
  setIsCore false

/-- One turn of the transfer loop of encoding scheme 1, over `first_rack`, `cross_rack` and the
blocks sent so far. `cross_rack` is not cleared at the next group. -/
def transferStep (n r : Nat) (nodeRack : Cells Nat) (st : Nat × Bool × List Nat) (i : Nat) :
    Except Fault (Nat × Bool × List Nat) := do
  let rack ← nodeRack.read i
  let firstRack := if i % (r + 1) = 0 then rack else st.1
  let crossRack := st.2.1 || firstRack ≠ rack
  if (i + 1) % (r + 1) ≠ 0 ∧ i + 1 ≠ n then return (firstRack, crossRack, st.2.2 ++ [i])
  else if crossRack then return (firstRack, crossRack, st.2.2 ++ [i])
  else return (firstRack, crossRack, st.2.2)

/-- The blocks that are sent through the core before they are stored. -/
def transferList (n r encodingScheme : Nat) (nodeRack : Cells Nat) : Except Fault (List Nat) := do
  let firstRack ← nodeRack.read 0
  if encodingScheme = 1 then
    let st ← (List.range n).foldlM (transferStep n r nodeRack) (firstRack, false, [])
    return st.2.2
  else return List.range n

def sendBlock (key : Key) (all : Cells Block) (lastIndex : Nat) (last : Block)
    (expiration flags i : Nat) : Prog Unit := do
  let c ← Proc.get
  let s ← Proc.lift (c.nodeServer i)
  let block ← Proc.lift (if i ≠ lastIndex then all.read i else .ok last)
  memcachedVdo s (.set (blockKey key i) block flags expiration)

/-- `memcached_lrc_send_binary`. -/
def lrcSendBinary (V : CodingMatrix) : LrcSend := fun server key value expiration flags => do
  let c ← Proc.get
  let blockSize := determineBlockSizeRs value.length c.numberOfK
  let (_, dataPtrs) ← Proc.lift (fillDataPtrs c.numberOfK blockSize value)
  let all ← Proc.lift (allBlocks V c.numberOfN c.numberOfK c.numberOfR blockSize dataPtrs)
  let c ← Proc.lift (loadRacks c)
  Proc.modify (fun _ => c)
  let lastSize := sizeSub value.length (blockSize * (c.numberOfK - 1))
  Proc.lift (alloc lastSize)
  let lastData ← Proc.lift (dataPtrs.read (c.numberOfK - 1))
  let last ← Proc.lift (readRange lastData 0 lastSize)
  let transfers ← Proc.lift (transferList c.numberOfN c.numberOfR c.encodingScheme c.nodeRack)
  Proc.each (fun i => do
    let block ← Proc.lift (all.read i)
    crossNetworkcore (blockKey key i) block) transfers
  Proc.each (sendBlock key all (lastDataIndex c.numberOfK c.numberOfR) last expiration flags)
    (List.range c.numberOfN)
  memcachedResponse server

def memcachedSet (V : CodingMatrix) (key : Key) (value : Block) (expiration flags : Nat) :
    Prog ReturnCode :=
  memcachedSendWith (lrcSendBinary V) key value expiration flags

end OptLrc.Storage
