import OptLrc.Routing

namespace OptLrc.Ejection

open OptLrc.Galois OptLrc.Memory OptLrc.Encoder OptLrc.Memcached OptLrc.Continuum OptLrc.Routing

/-- What `network_connect` and `unix_socket_connect` do: open the socket, or fail in one of the
states of an attempt. -/
inductive Network
  | connected
  | failed
  | failedNew
  | failedAddrinfo
  | failedInProgress
  deriving DecidableEq

def Network.state (network : Network) (state : ServerState) : ServerState :=
  match network with
  | .connected => .connected
  | .failed => state
  | .failedNew => .new
  | .failedAddrinfo => .addrinfo
  | .failedInProgress => .inProgress

inductive Behavior
  | autoEjectHosts
  | removeFailedServers
  | serverFailureLimit
  | serverTimeoutLimit
  | retryTimeout
  | deadTimeout

/-- `_server_init`. -/
def serverInit (host : Host) : Server := ⟨host, false, .new, 0, 0, 0, 0, 0⟩

/-- `memcached_create`. -/
def memcachedCreate : Root :=
  { servers := [], ketama := ⟨[], 0, 0, 0⟩, autoEjectHosts := false, serverFailureLimit := 5,
    serverTimeoutLimit := 0, retryTimeout := 2, deadTimeout := 0, queryId := 1 }

def updateServer (m : Root) (s : Nat) (f : Server → Server) : Root :=
  { m with servers := m.servers.modify s f }

def markServerAsClean (server : Server) : Server :=
  { server with serverFailureCounter := 0, serverTimeoutCounter := 0, nextRetry := 0 }

/-- `memcached_mark_server_for_timeout`. -/
def markServerForTimeout (m : Root) (clock : Option Nat) (server : Server) : Server :=
  if server.state = .inTimeout then server
  else
    let server := if server.serverTimeoutCounterQueryId ≠ m.queryId then
        { server with serverTimeoutCounter := (server.serverTimeoutCounter + 1) % 2 ^ 32,
                      serverTimeoutCounterQueryId := m.queryId % 2 ^ 32 }
      else server
    if m.serverTimeoutLimit ≤ server.serverTimeoutCounter then
      let nextRetry := match clock with
        | some now => now + m.retryTimeout
        | none => 1
      let server := { server with nextRetry := nextRetry, state := .inTimeout }
      if server.serverFailureCounterQueryId ≠ m.queryId then
        { server with serverFailureCounter := (server.serverFailureCounter + 1) % 2 ^ 32,
                      serverFailureCounterQueryId := m.queryId }
      else server
    else server

/-- `memcached_quit_server`, which drains an open connection unless it died, and `close_socket`. -/
def quitServer (ioDeath : Bool) (server : Server) : Server :=
  let server := if server.isOpen ∧ ioDeath = false then
      { server with serverFailureCounter := 0, serverTimeoutCounter := 0 }
    else server
  { server with isOpen := false, state := .new }

/-- What `backoff_handling` does to a server that it is about to eject. -/
def retryLater (m : Root) (now : Option Nat) (server : Server) : Server :=
  match now with
  | some now =>
    if 0 < m.deadTimeout then
      { server with nextRetry := now + m.deadTimeout,
                    serverFailureCounter := (m.serverFailureLimit + (2 ^ 32 - 1)) % 2 ^ 32 }
    else server
  | none => server

/-- The end of `backoff_handling`, with `in_timeout`. -/
def checkTimeout (now : Option Nat) (m : Root) (s : Nat) (server : Server) : HostsReturn × Bool × Root :=
  if server.state = .inTimeout then
    match now with
    | some now =>
      if server.nextRetry < now then
        (.success, true, updateServer m s (fun _ => { server with state := .new, serverTimeoutCounter := 0 }))
      else (.serverTemporarilyDisabled, false, updateServer m s (fun _ => server))
    | none => (.serverTemporarilyDisabled, false, updateServer m s (fun _ => server))
  else (.success, false, updateServer m s (fun _ => server))

/-- `backoff_handling`, with the clock that it reads and the one that `update_continuum` reads. -/
def backoffHandling (D : Distribution) (now later : Option Nat) (m : Root) (s : Nat) (server : Server) :
    Except Fault (HostsReturn × Bool × Root) :=
  if m.serverFailureLimit ≤ server.serverFailureCounter then
    if m.autoEjectHosts then do
      let (rc, m) ← updateContinuum D later (updateServer m s (fun _ => retryLater m now server))
      return (if rc = .success then .serverMarkedDead else rc, false, m)
    else
      return checkTimeout now m s { server with state := .inTimeout,
                                                nextRetry := if server.nextRetry = 0 then 1 else server.nextRetry }
  else return checkTimeout now m s server

/-- The rest of `_memcached_connect`, after `backoff_handling`. -/
def connectAfter (later : Option Nat) (network : Network) (s : Nat) (rc : HostsReturn) (inTimeout : Bool) (m : Root) :
    HostsReturn × Root :=
  if rc ≠ .success then (rc, m)
  else if network = .connected then
    (.success, updateServer m s (fun server =>
      { markServerAsClean server with isOpen := true, state := .connected }))
  else
    (if inTimeout then .serverTemporarilyDisabled else .connectFailed, updateServer m s (fun server =>
      markServerForTimeout m later { server with state := network.state server.state }))

/-- `memcached_connect`. -/
def memcachedConnect (D : Distribution) (now later : Option Nat) (network : Network) (m : Root) (s : Nat)
    (server : Server) : Except Fault (HostsReturn × Root) :=
  if server.isOpen then .ok (.success, m)
  else do
    let (rc, inTimeout, m) ← backoffHandling D now later m s server
    return connectAfter later network s rc inTimeout m

def localhost : List Byte := "localhost".toList.map (fun letter => Byte.ofNat letter.toNat)

/-- `memcached_server_add`; the host is what is known once the defaults are in. -/
def memcachedServerAdd (D : Distribution) (host : Host) (clock : Option Nat) (m : Root) :
    Except Fault (HostsReturn × Root) :=
  let port := if host.port % 2 ^ 16 = 0 then defaultPort else host.port % 2 ^ 16
  let hostname := if host.hostname = [] then localhost else host.hostname
  if hostname.length < maxHost then
    updateContinuum D clock { m with servers := m.servers ++ [serverInit ⟨hostname, port⟩] }
  else .ok (.invalidArguments, m)

/-- `memcached_behavior_set`. `REMOVE_FAILED_SERVERS` falls through into the limit. -/
def memcachedBehaviorSet (m : Root) (flag : Behavior) (data : Nat) : HostsReturn × Root :=
  match flag with
  | .autoEjectHosts => (.success, { m with autoEjectHosts := data ≠ 0 })
  | .removeFailedServers =>
    if data = 0 then (.invalidArguments, { m with autoEjectHosts := false })
    else (.success, { m with autoEjectHosts := true, serverFailureLimit := data % 2 ^ 32 })
  | .serverFailureLimit =>
    if data = 0 then (.invalidArguments, m) else (.success, { m with serverFailureLimit := data % 2 ^ 32 })
  | .serverTimeoutLimit => (.success, { m with serverTimeoutLimit := data % 2 ^ 32 })
  | .retryTimeout => (.success, { m with retryTimeout := (BitVec.ofNat 32 data).toInt })
  | .deadTimeout => (.success, { m with deadTimeout := (BitVec.ofNat 32 data).toInt })

/-- What a client and its surroundings do to one another: a query starts, a connection is asked for,
closed or lost, a key is looked up, and the client is reconfigured. -/
inductive Event
  | query
  | connect (s : Nat) (now later : Option Nat) (network : Network)
  | quit (s : Nat) (ioDeath : Bool)
  | nextRetry (s : Nat) (absoluteTime : Int)
  | lookup (key : Key) (now later : Option Nat)
  | serverAdd (host : Host) (clock : Option Nat)
  | distribution (clock : Option Nat)
  | behavior (flag : Behavior) (data : Nat)

/-- A number that is not a server's is no event. -/
def step (D : Distribution) (m : Root) : Event → Except Fault Root
  | .query => .ok { m with queryId := (m.queryId + 1) % 2 ^ 64 }
  | .connect s now later network =>
    match m.servers[s]? with
    | some server => do return (← memcachedConnect D now later network m s server).2
    | none => .ok m
  | .quit s ioDeath => .ok (updateServer m s (quitServer ioDeath))
  | .nextRetry s absoluteTime => .ok (updateServer m s (fun server => { server with nextRetry := absoluteTime }))
  | .lookup key now later => do return (← generateHashWithRedistribution D now later m key).2
  | .serverAdd host clock => do return (← memcachedServerAdd D host clock m).2
  | .distribution clock => do return (← updateContinuum D clock m).2
  | .behavior flag data => .ok (memcachedBehaviorSet m flag data).2

def run (D : Distribution) (m : Root) (events : List Event) : Except Fault Root := events.foldlM (step D) m

/-- A client with servers, once its distribution is set. -/
def Configured (D : Distribution) (m : Root) : Prop :=
  ∃ (hosts : List Host) (now : Nat), hosts ≠ [] ∧ (∀ host ∈ hosts, Fits host) ∧
    updateContinuum D (some now) { memcachedCreate with servers := hosts.map serverInit } = .ok (.success, m)

end OptLrc.Ejection
