import OptLrc.Clockwise
import OptLrc.Memcached

namespace OptLrc.Continuum

open OptLrc.Galois OptLrc.Memory OptLrc.Encoder OptLrc.Memcached OptLrc.Clockwise

/-- `memcached_continuum_item_st`. -/
structure ContinuumItem where
  index : Nat
  value : BitVec 32

/-- `qsort` with `continuum_item_cmp`, which may leave equal points in any order. -/
structure Qsort where
  sort : List ContinuumItem → List ContinuumItem
  perm : ∀ items, (sort items).Perm items
  sorted : ∀ items, (sort items).Pairwise (fun a b => a.value.toNat ≤ b.value.toNat)

/-- `hashkit_digest` of the client, the sort of the C library, and whether the distribution is
`MEMCACHED_DISTRIBUTION_CONSISTENT_KETAMA_SPY`. -/
structure Distribution where
  digest : Key → BitVec 32
  qsort : Qsort
  isSpy : Bool

structure Ketama where
  continuum : Cells ContinuumItem
  continuumCount : Nat
  continuumPointsCounter : Nat
  nextDistributionRebuild : Int

/-- `memcached_server_state_t`. -/
inductive ServerState
  | new
  | addrinfo
  | inProgress
  | connected
  | inTimeout
  deriving DecidableEq

/-- The fields of `memcached_instance_st` that decide where a key goes and whether a connection is
tried; `isOpen` is `valid()`. -/
structure Server where
  host : Host
  isOpen : Bool
  state : ServerState
  nextRetry : Int
  serverFailureCounter : Nat
  serverFailureCounterQueryId : Nat
  serverTimeoutCounter : Nat
  serverTimeoutCounterQueryId : Nat

/-- The fields of `memcached_st` that go with them. -/
structure Root where
  servers : List Server
  ketama : Ketama
  autoEjectHosts : Bool
  serverFailureLimit : Nat
  serverTimeoutLimit : Nat
  retryTimeout : Int
  deadTimeout : Int
  queryId : Nat

inductive HostsReturn
  | success
  | errno
  | memoryAllocationFailure
  | invalidArguments
  | serverMarkedDead
  | serverTemporarilyDisabled
  | connectFailed
  deriving DecidableEq

/-- `MEMCACHED_POINTS_PER_SERVER`. -/
def pointsPerServer : Nat := 100

/-- `MEMCACHED_CONTINUUM_ADDITION`. -/
def continuumAddition : Nat := 10

/-- `MEMCACHED_NI_MAXHOST`. -/
def maxHost : Nat := 1025

/-- `MEMCACHED_NI_MAXSERV`. -/
def maxServ : Nat := 32

/-- `MEMCACHED_DEFAULT_PORT`. -/
def defaultPort : Nat := 11211

/-- `%u`. -/
def decimal (n : Nat) : List Byte := (Nat.toDigits 10 n).map (fun digit => Byte.ofNat digit.toNat)

/-- The text that `snprintf` writes into `sort_host`. -/
def sortHost (isSpy : Bool) (host : Host) (pointerIndex : Nat) : Key :=
  if isSpy then
    Byte.ofNat 47 :: (host.hostname ++ Byte.ofNat 58 :: (decimal host.port ++ Byte.ofNat 45 :: decimal pointerIndex))
  else if host.port = defaultPort then host.hostname ++ Byte.ofNat 45 :: decimal pointerIndex
  else host.hostname ++ Byte.ofNat 58 :: (decimal host.port ++ Byte.ofNat 45 :: decimal pointerIndex)

/-- `sizeof(sort_host)`. -/
def sortHostSize (isSpy : Bool) : Nat :=
  if isSpy then 1 + maxHost + 1 + maxServ + 1 + maxServ else maxHost + 1 + maxServ + 1 + maxServ

def point (D : Distribution) (host : Host) (pointerIndex : Nat) : BitVec 32 :=
  D.digest (sortHost D.isSpy host pointerIndex)

/-- The points of one server; the index is gone when a text does not fit. -/
def putPoints (D : Distribution) (host : Host) (hostIndex : Nat) :
    List Nat → Cells ContinuumItem → Nat → Except Fault (Cells ContinuumItem × Option Nat)
  | [], continuum, continuumIndex => .ok (continuum, some continuumIndex)
  | pointerIndex :: rest, continuum, continuumIndex =>
    if sortHostSize D.isSpy ≤ (sortHost D.isSpy host pointerIndex).length then .ok (continuum, none)
    else do
      let continuum ← continuum.write continuumIndex ⟨hostIndex, point D host pointerIndex⟩
      putPoints D host hostIndex rest continuum (continuumIndex + 1)

/-- Whether the loops of `update_continuum` count a server in. -/
def isLive (autoEject : Bool) (now : Nat) (server : Server) : Bool := !autoEject || decide (server.nextRetry ≤ now)

/-- The loop over the servers, with `continuum_index` and `pointer_counter`. -/
def putServers (D : Distribution) (autoEject : Bool) (now : Nat) :
    List (Server × Nat) → Cells ContinuumItem → Nat → Nat → Except Fault (Cells ContinuumItem × Option Nat)
  | [], continuum, _, pointerCounter => .ok (continuum, some pointerCounter)
  | (server, hostIndex) :: rest, continuum, continuumIndex, pointerCounter =>
    if isLive autoEject now server then do
      let (continuum, next) ← putPoints D server.host hostIndex (List.range pointsPerServer) continuum continuumIndex
      match next with
      | none => .ok (continuum, none)
      | some continuumIndex =>
        putServers D autoEject now rest continuum continuumIndex (pointerCounter + pointsPerServer)
    else putServers D autoEject now rest continuum continuumIndex pointerCounter

/-- One turn of the loop that counts the servers without a retry delay, and keeps the first time at
which one of the others has its next try. -/
def countTurn (now : Nat) (count : Nat × Int) (server : Server) : Nat × Int :=
  if server.nextRetry ≤ now then (count.1 + 1, count.2)
  else if count.2 = 0 ∨ server.nextRetry < count.2 then (count.1, server.nextRetry)
  else count

def countLive (now : Nat) (servers : List Server) : Nat × Int := servers.foldl (countTurn now) (0, 0)

def realloc (continuum : Cells ContinuumItem) (n : Nat) : Cells ContinuumItem :=
  (continuum ++ Cells.new (n - continuum.length)).take n

def Ketama.grow (k : Ketama) (liveServers : Nat) : Ketama :=
  if k.continuumCount < liveServers then
    { k with continuum := realloc k.continuum ((liveServers + continuumAddition) * pointsPerServer),
             continuumCount := liveServers + continuumAddition }
  else k

/-- `qsort(continuum, num, ..)`, which looks at every one of the `num` points. -/
def Qsort.run (q : Qsort) (continuum : Cells ContinuumItem) (num : Nat) : Except Fault (Cells ContinuumItem) :=
  if num ≤ continuum.length then
    match (continuum.take num).mapM id with
    | some items => .ok ((q.sort items).map some ++ continuum.drop num)
    | none => .error .uninitialised
  else .error .outOfBounds

/-- `update_continuum` at the time that `gettimeofday` gives it, if it gives one. -/
def updateContinuum (D : Distribution) (clock : Option Nat) (m : Root) : Except Fault (HostsReturn × Root) :=
  match clock with
  | none => .ok (.errno, m)
  | some now =>
    let (live, rebuild) := countLive now m.servers
    let k := if m.autoEjectHosts then { m.ketama with nextDistributionRebuild := rebuild } else m.ketama
    let liveServers := if m.autoEjectHosts then live else m.servers.length
    if liveServers = 0 then .ok (.success, { m with ketama := k })
    else do
      let k := k.grow liveServers
      let (continuum, pointerCounter) ← putServers D m.autoEjectHosts now m.servers.zipIdx k.continuum 0 0
      match pointerCounter with
      | none => .ok (.memoryAllocationFailure, { m with ketama := { k with continuum := continuum } })
      | some pointerCounter => do
        let continuum ← D.qsort.run continuum pointerCounter
        .ok (.success, { m with ketama :=
          { k with continuum := continuum, continuumPointsCounter := pointerCounter } })

/-- `dispatch_host`. -/
def dispatchHost (k : Ketama) (hash : BitVec 32) : Except Fault Nat := do
  let num := k.continuumPointsCounter
  let right ← bisect (fun middle => do return decide ((← k.continuum.read middle).value < hash)) 0 num
  return (← k.continuum.read (if right = num then 0 else right)).index

/-- `_generate_hash_wrapper`. -/
def generateHashWrapper (D : Distribution) (m : Root) (key : Key) : BitVec 32 :=
  if m.servers.length = 1 then 0 else D.digest key

/-- `_regen_for_auto_eject`, with the clock that it reads and the one that `update_continuum` reads. -/
def regenForAutoEject (D : Distribution) (now later : Option Nat) (m : Root) : Except Fault Root :=
  if m.autoEjectHosts ∧ m.ketama.nextDistributionRebuild ≠ 0 then
    match now with
    | none => .ok m
    | some now =>
      if m.ketama.nextDistributionRebuild < now then do
        let (_, m) ← updateContinuum D later m
        return m
      else .ok m
  else .ok m

/-- `memcached_generate_hash_with_redistribution`. -/
def generateHashWithRedistribution (D : Distribution) (now later : Option Nat) (m : Root) (key : Key) :
    Except Fault (Nat × Root) := do
  let hash := generateHashWrapper D m key
  let m ← regenForAutoEject D now later m
  return (← dispatchHost m.ketama hash, m)

end OptLrc.Continuum
