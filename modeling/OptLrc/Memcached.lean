import OptLrc.Encoder
import OptLrc.Process

namespace OptLrc.Memcached

open OptLrc.Galois OptLrc.Memory OptLrc.Jerasure OptLrc.Encoder OptLrc.Process

/-- The requests of the binary protocol that the client issues. -/
inductive Request
  | set (key : Key) (value : Block) (flags expiration : Nat)
  | getk (key : Key)
  | getkq (key : Key)
  | noop
  | delete (key : Key)
  deriving DecidableEq

inductive Opcode
  | set
  | getk
  | getkq
  | noop
  | delete
  deriving DecidableEq, Repr

inductive Status
  | success
  | keyEnoent
  | keyEexists
  | notStored
  | e2big
  | enomem
  | einval
  deriving DecidableEq, Repr

structure Reply where
  opcode : Opcode
  status : Status
  key : Key
  flags : Nat
  value : Block
  deriving DecidableEq

inductive ReturnCode
  | success
  | finished
  | notFound
  | dataExists
  | notStored
  | e2big
  | memoryAllocationFailure
  | unknownReadFailure
  | badKeyProvided
  | invalidArguments
  | noServers
  | maximumReturn
  deriving DecidableEq, Repr

def memcachedFatal : ReturnCode → Bool
  | .success | .finished | .notFound | .dataExists | .notStored | .e2big => false
  | _ => true

/-- `memcached_result_st`. -/
structure Result where
  itemKey : Key
  itemFlags : Nat
  value : Block
  deriving DecidableEq

def Result.reset : Result := ⟨[], 0, []⟩

/-- A connection: requests not yet sent, replies not yet read, and `cursor_active_`. -/
structure Conn where
  writeBuffer : List Request
  inbox : List Reply
  responseCount : Nat
  deriving DecidableEq

def Conn.idle : Conn := ⟨[], [], 0⟩

structure Io where
  conn : Nat → Conn
  result : Result

def Io.idle : Io := ⟨fun _ => .idle, .reset⟩

def Io.set (io : Io) (s : Nat) (conn : Conn) : Io := { io with conn := Function.update io.conn s conn }

structure Host where
  hostname : List Byte
  port : Nat
  deriving DecidableEq

/-- One node of a rack's list of servers. -/
structure RackServer where
  serverKey : Nat
  use : Bool
  deriving DecidableEq

/-- The fields of `memcached_st` that the LRC paths read or write, and the words of the
rack file. -/
structure Client where
  numberOfN : Nat
  numberOfK : Nat
  numberOfR : Nat
  numberOfB : Nat
  numberOfRack : Nat
  encodingScheme : Nat
  rackIsAdd : Bool
  isCore : Bool
  networkCoreServerKey : Nat
  failNodeIndex : Nat
  node2rack : Cells Nat
  nodeRack : Cells Nat
  rackGroup : Cells (Cells RackServer)
  hosts : List Host
  rackFile : List (List Byte)
  io : Io

/-- The entries of `node2rack`, `node_rack` and `rack_group`, and of the buffers for words of
the rack file. -/
def maxNodes : Nat := 20

abbrev Prog := Proc Request Reply Client

def Client.setConn (c : Client) (s : Nat) (conn : Conn) : Client := { c with io := c.io.set s conn }

def Client.setConns (c : Client) (conn : Nat → Conn) : Client :=
  { c with io := { c.io with conn := conn } }

def Client.serverCount (c : Client) : Nat := c.hosts.length

/-- `memcached_instance_fetch`, with the bound that it does not check. -/
def Client.instance (c : Client) (serverKey : Nat) : Except Fault Nat :=
  if serverKey < c.serverCount then .ok serverKey else .error .outOfBounds

def Client.nodeServer (c : Client) (i : Nat) : Except Fault Nat := do
  c.instance (← c.node2rack.read i)

/-- The condition under which `memcached_send` and `memcached_get` use the code. -/
def Client.lrcMode (c : Client) : Bool :=
  0 < c.numberOfN && 0 < c.numberOfK && 0 < c.numberOfR && 0 < c.numberOfB && !c.isCore

/-- `memcached_key_test` under the binary protocol. -/
def memcachedKeyTest (key : Key) : Bool := 0 < key.length && key.length < 251

structure Item where
  value : Block
  flags : Nat
  expiration : Nat
  deriving DecidableEq

/-- What the servers hold. -/
abbrev World := Nat → Key → Option Item

def World.put (w : World) (s : Nat) (key : Key) (item : Option Item) : World := fun s' key' =>
  if s' = s ∧ key' = key then item else w s' key'

theorem put_self (w : World) (s : Nat) (key : Key) (item : Option Item) : w.put s key item s key = item :=
  if_pos ⟨rfl, rfl⟩

theorem put_of_ne {w : World} {s t : Nat} {key key' : Key} {item : Option Item}
    (h : ¬ (t = s ∧ key' = key)) : w.put s key item t key' = w t key' :=
  if_neg h

def Reply.ok (opcode : Opcode) : Reply := ⟨opcode, .success, [], 0, []⟩

def Reply.failed (opcode : Opcode) (status : Status) : Reply := ⟨opcode, status, [], 0, []⟩

def Reply.hit (opcode : Opcode) (key : Key) (item : Item) : Reply :=
  ⟨opcode, .success, key, item.flags, item.value⟩

/-- A server that stores and returns what was sent. -/
def serve (s : Nat) (request : Request) (w : World) : List Reply × World :=
  match request with
  | .set key value flags expiration => ([.ok .set], w.put s key (some ⟨value, flags, expiration⟩))
  | .getk key =>
    match w s key with
    | some item => ([.hit .getk key item], w)
    | none => ([.failed .getk .keyEnoent], w)
  | .getkq key =>
    match w s key with
    | some item => ([.hit .getkq key item], w)
    | none => ([], w)
  | .noop => ([.ok .noop], w)
  | .delete key =>
    match w s key with
    | some _ => ([.ok .delete], w.put s key none)
    | none => ([.failed .delete .keyEnoent], w)

variable {σ : Type}

/-- An environment whose servers store and return what was sent, and whose replies become
readable in any order. -/
structure Storing (E : Env Request Reply σ) (view : σ → World) : Prop where
  replies : ∀ s q x, (E.serve s q x).1 = (serve s q (view x)).1
  stores : ∀ s q x, view (E.serve s q x).2 = (serve s q (view x)).2
  pick : ∀ s t rest x, view (E.pick s t rest x).2 = view x

/-- The servers themselves, readable in the order of their numbers. -/
def storingEnv : Env Request Reply World where
  serve := serve
  pick s _ _ w := (s, w)
  pick_mem s t rest w := by simp

theorem storing_storingEnv : Storing storingEnv id := ⟨fun _ _ _ => rfl, fun _ _ _ => rfl, fun _ _ _ _ => rfl⟩

end OptLrc.Memcached
