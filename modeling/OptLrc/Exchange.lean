import OptLrc.Memcached

namespace OptLrc.Exchange

open OptLrc.Galois OptLrc.Memory OptLrc.Jerasure OptLrc.Encoder OptLrc.Process OptLrc.Memcached

def modifyConn (s : Nat) (f : Conn → Conn) : Prog Unit :=
  Proc.modify (fun c => c.setConn s (f (c.io.conn s)))

/-- Put one request on the wire; the replies stay unread. -/
def transmit (s : Nat) (request : Request) : Prog Unit := do
  let replies ← Proc.send s request
  modifyConn s (fun conn => { conn with inbox := conn.inbox ++ replies })

/-- `memcached_io_writev`: without `with_flush` the request waits in the write buffer. -/
def ioWritev (s : Nat) (request : Request) (withFlush : Bool) : Prog Unit := do
  let c ← Proc.get
  if withFlush then
    modifyConn s (fun conn => { conn with writeBuffer := [] })
    Proc.each (transmit s) ((c.io.conn s).writeBuffer ++ [request])
  else
    modifyConn s (fun conn => { conn with writeBuffer := conn.writeBuffer ++ [request] })

def memcachedVdo (s : Nat) (request : Request) : Prog Unit := do
  ioWritev s request true
  modifyConn s (fun conn => { conn with responseCount := conn.responseCount + 1 })

def statusCode : Status → ReturnCode
  | .success => .success
  | .keyEnoent => .notFound
  | .keyEexists => .dataExists
  | .notStored => .notStored
  | .e2big => .e2big
  | .enomem => .memoryAllocationFailure
  | .einval => .unknownReadFailure

/-- `_read_one_response`: the hit of a quiet get does not use up the expected reply, and a
fatal status closes the connection. -/
def readOneResponse (conn : Conn) (result : Result) :
    Except Fault (ReturnCode × Conn × Result) :=
  match conn.inbox with
  | [] => .error .blocked
  | reply :: rest =>
    let conn : Conn := { conn with inbox := rest, responseCount := conn.responseCount - 1 }
    match reply.status, reply.opcode with
    | .success, .getkq =>
      .ok (.success, { conn with responseCount := conn.responseCount + 1 },
        ⟨reply.key, reply.flags, reply.value⟩)
    | .success, .getk => .ok (.success, conn, ⟨reply.key, reply.flags, reply.value⟩)
    | .success, .noop => .ok (.finished, conn, result)
    | .success, _ => .ok (.success, conn, result)
    | status, _ =>
      .ok (statusCode status, if memcachedFatal (statusCode status) then .idle else conn, result)

def memcachedResponse (s : Nat) : Prog ReturnCode := do
  let c ← Proc.get
  let (rc, conn, result) ← Proc.lift (readOneResponse (c.io.conn s) c.io.result)
  Proc.modify (fun c => { c with io := { c.io.set s conn with result := result } })
  return rc

/-- `while(instance->response_count())`: each turn reads a reply, so the unread replies
bound the number of turns. -/
def drainConn : Nat → Conn → Result → Except Fault (Conn × Result)
  | fuel, conn, result =>
    if conn.responseCount = 0 then .ok (conn, result)
    else
      match fuel with
      | 0 => .error .blocked
      | fuel + 1 => do
        let (_, conn, result) ← readOneResponse conn result
        drainConn fuel conn result

/-- Remove any data sitting in the queues before a get. -/
def drain : Nat → Io → Except Fault Io
  | 0, io => .ok io
  | count + 1, io => do
    let io ← drain count io
    let (conn, result) ← drainConn (io.conn count).inbox.length (io.conn count) io.result
    return { io.set count conn with result := result }

/-- `int(c) - 48` for a `char`. -/
def charDigit (b : Byte) : Int := BitVec.toInt b - 48

/-- The index that `simple_binary_mget` parses from the last two characters of a key. -/
def suffixIndex (key : Key) : Except Fault Nat :=
  match key.reverse with
  | one :: ten :: _ =>
    let index := charDigit ten * 10 + charDigit one
    if index < 0 then .error .outOfBounds else .ok index.toNat
  | _ => .error .outOfBounds

def routeKey (c : Client) (numberOfKeys : Nat) (key : Key) : Except Fault Nat := do
  if 1 < numberOfKeys ∧ c.lrcMode then
    c.nodeServer (← suffixIndex key)
  else if c.isCore then
    c.instance c.networkCoreServerKey
  else
    c.nodeServer (← suffixIndex key)

/-- One turn of the key loop of `simple_binary_mget`. -/
def mgetKey (numberOfKeys : Nat) (mgetMode : Bool) (key : Key) : Prog Unit := do
  let c ← Proc.get
  let s ← Proc.lift (routeKey c numberOfKeys key)
  ioWritev s (if mgetMode then .getkq key else .getk key) (numberOfKeys = 1)
  modifyConn s (fun conn => { conn with responseCount := 1 })

/-- The closing no-operation, for each server that owes a reply. -/
def mgetNoop (s : Nat) : Prog Unit := do
  let c ← Proc.get
  if (c.io.conn s).responseCount ≠ 0 then ioWritev s .noop true

def simpleBinaryMget (keys : List Key) (mgetMode : Bool) : Prog ReturnCode := do
  Proc.each (mgetKey keys.length mgetMode) keys
  if mgetMode then
    let c ← Proc.get
    Proc.each mgetNoop (List.range c.serverCount)
  return .success

/-- `initialize_query`. -/
def initializeQuery : Prog ReturnCode := do
  let c ← Proc.get
  if c.serverCount = 0 then return .noServers
  else
    Proc.modify (fun c => { c with io := { c.io with result := .reset } })
    return .success

/-- `__mget_by_key_real`. -/
def mgetByKeyReal (keys : List Key) (mgetMode : Bool) : Prog ReturnCode := do
  let rc ← initializeQuery
  if rc ≠ .success then return rc
  else if keys = [] then return .invalidArguments
  else if ¬ keys.all memcachedKeyTest then return .badKeyProvided
  else
    let c ← Proc.get
    let io ← Proc.lift (drain c.serverCount c.io)
    Proc.modify (fun c => { c with io := io })
    simpleBinaryMget keys mgetMode

def memcachedMget (keys : List Key) : Prog ReturnCode := mgetByKeyReal keys true

/-- `memcached_io_get_readable_server`: with two or more servers that owe a reply, any of
them may be readable first. -/
def readableServer : Prog (Option Nat) := do
  let c ← Proc.get
  match (List.range c.serverCount).filter (fun s => 0 < (c.io.conn s).responseCount) with
  | [] => return none
  | [s] => return some s
  | s :: t :: rest => return some (← Proc.poll s t rest)

/-- One turn of the loop of `memcached_fetch_result`, on a readable server. -/
def fetchTurn (next : Prog (Option Result × ReturnCode)) (s : Nat) :
    Prog (Option Result × ReturnCode) := do
  let rc ← memcachedResponse s
  match rc with
  | .success =>
    let c ← Proc.get
    return (some c.io.result, .success)
  | .finished =>
    modifyConn s (fun conn => { conn with responseCount := 0 })
    next
  | .notFound => next
  | rc => return (none, rc)

/-- The count kept in the result only chooses between `MEMCACHED_END` and `MEMCACHED_NOTFOUND`,
which the callers treat alike. -/
def fetchLoop : Nat → ReturnCode → Prog (Option Result × ReturnCode)
  | 0, _ => Proc.fault .blocked
  | fuel + 1, error => do
    match ← readableServer with
    | none => return (none, error)
    | some s => fetchTurn (fetchLoop fuel .notFound) s

def Client.unread (c : Client) : Nat :=
  ((List.range c.serverCount).map (fun s => (c.io.conn s).inbox.length)).sum

/-- `memcached_fetch_result`: each turn of its loop reads a reply, so the unread replies
bound the number of turns. -/
def memcachedFetchResult : Prog (Option Result × ReturnCode) := do
  let c ← Proc.get
  fetchLoop (Client.unread c + 1) .notFound

def memcachedGetByKey (key : Key) : Prog (Option Result × ReturnCode) := do
  let rc ← mgetByKeyReal [key] false
  if rc ≠ .success then return (none, rc)
  else memcachedFetchResult

end OptLrc.Exchange
