import OptLrc.Memcached

namespace OptLrc.Rack

open OptLrc.Galois OptLrc.Memory OptLrc.Memcached

abbrev Word := List Byte

def digit? (b : Byte) : Option Nat :=
  if 48 ≤ BitVec.toNat b ∧ BitVec.toNat b < 58 then some (BitVec.toNat b - 48) else none

/-- The number that `%d` reads from a word of digits. -/
def Word.number? (w : Word) : Option Nat :=
  if w = [] then none else w.foldlM (fun acc b => (digit? b).map (acc * 10 + ·)) 0

/-- What is left of the file, and the variables of `add_rack`. -/
structure Scan where
  words : List Word
  data : Word
  host : Nat
  nodeId : Nat
  nodeCount : Nat
  racks : Nat
  client : Client

/-- `fscanf(fp, "%d", ..)`: a word that is no number stays in the file. -/
def scanNumber (words : List Word) (old : Nat) : Nat × List Word :=
  match words with
  | [] => (old, [])
  | w :: rest =>
    match w.number? with
    | some v => (v, rest)
    | none => (old, w :: rest)

/-- `fscanf(fp, "%s", ..)` into a buffer of twenty bytes. -/
def scanWord (words : List Word) (old : Word) : Except Fault (Word × List Word) :=
  match words with
  | [] => .ok (old, [])
  | w :: rest => if w.length < maxNodes then .ok (w, rest) else .error .outOfBounds

/-- The first server of the client with a name and a port. -/
def findServer (hosts : List Host) (hostname : Word) (port : Nat) : Option Nat :=
  (List.range hosts.length).find? (fun ii => hosts[ii]? = some ⟨hostname, port⟩)

/-- The last one: the loop over the core's candidates does not break. -/
def findCore (hosts : List Host) (hostname : Word) (port : Nat) : Option Nat :=
  (List.range hosts.length).reverse.find? (fun ii => hosts[ii]? = some ⟨hostname, port⟩)

/-- The ids of the `@` line. -/
def scanIds (st : Scan) (ll : Nat) : Except Fault Scan := do
  let (nodeId, words) := scanNumber st.words st.nodeId
  let node2rack ← st.client.node2rack.write ll nodeId
  return { st with words := words, nodeId := nodeId, client := { st.client with node2rack := node2rack } }

/-- `p` is the last node of the current rack, until the rack is full. -/
def pushServer (rack : Cells RackServer) (nodeCount serverKey : Nat) :
    Except Fault (Cells RackServer) :=
  match rack.reverse with
  | none :: filled =>
    .ok (filled.reverse ++ [some ⟨serverKey, false⟩] ++ if nodeCount = 1 then [] else [none])
  | _ => .error .uninitialised

/-- One turn of `while(!feof(fp))`. -/
def scanTurn (st : Scan) : Except Fault Scan := do
  let (data, words) ← scanWord st.words st.data
  let st := { st with data := data, words := words }
  let st ← if data.head? = some (Byte.ofNat 64) then
      (List.range st.client.numberOfN).foldlM scanIds st
    else pure st
  if data.head? = some (Byte.ofNat 35) then
    let (nodeCount, words) := scanNumber st.words st.nodeCount
    let rackGroup ← st.client.rackGroup.write st.racks [none]
    return { st with words := words, nodeCount := nodeCount, racks := st.racks + 1,
                     client := { st.client with rackGroup := rackGroup } }
  else
    let (host, words) := scanNumber st.words st.host
    let st := { st with host := host, words := words }
    match findServer st.client.hosts data host with
    | none => return st
    | some serverKey =>
      if st.racks = 0 then throw .uninitialised
      else
        let rack ← st.client.rackGroup.read (st.racks - 1)
        let rack ← pushServer rack st.nodeCount serverKey
        let rackGroup ← st.client.rackGroup.write (st.racks - 1) rack
        return { st with nodeCount := st.nodeCount - 1,
                         client := { st.client with rackGroup := rackGroup } }

/-- Each turn reads a word, so the words of the file bound the number of turns. -/
def scanLoop : Nat → Scan → Except Fault Scan
  | 0, st => .ok st
  | fuel + 1, st => if st.words = [] then .ok st else do scanLoop fuel (← scanTurn st)

def addRack (c : Client) : Except Fault Client := do
  let (coreIp, words) ← scanWord c.rackFile []
  let (coreHost, words) := scanNumber words 0
  let core := (findCore c.hosts coreIp coreHost).getD c.networkCoreServerKey
  let st ← scanLoop words.length
    { words := words, data := [], host := 0, nodeId := 0, nodeCount := 0, racks := 0,
      client := { c with networkCoreServerKey := core, rackGroup := Cells.new maxNodes } }
  return { st.client with rackIsAdd := true }

/-- The first server of a rack that is not in use. -/
def takeServer : Cells RackServer → Except Fault (Option (Nat × Cells RackServer))
  | [] => .ok none
  | none :: _ => .error .uninitialised
  | some server :: rest => do
    if server.use then
      return (← takeServer rest).map (fun (key, rest) => (key, some server :: rest))
    else
      return some (server.serverKey, some ⟨server.serverKey, true⟩ :: rest)

/-- One turn of the loop that turns rack ids into servers. -/
def assignNode (c : Client) (i : Nat) : Except Fault Client := do
  let id ← c.node2rack.read i
  let rack ← c.rackGroup.read id
  let nodeRack ← c.nodeRack.write i id
  match ← takeServer rack with
  | none => return { c with nodeRack := nodeRack }
  | some (serverKey, rack) =>
    let node2rack ← c.node2rack.write i serverKey
    let rackGroup ← c.rackGroup.write id rack
    return { c with nodeRack := nodeRack, node2rack := node2rack, rackGroup := rackGroup }

/-- Load the placement before the first object is stored. -/
def loadRacks (c : Client) : Except Fault Client := do
  if c.rackIsAdd then return c
  else
    let c ← addRack c
    (List.range c.numberOfN).foldlM assignNode c

end OptLrc.Rack
