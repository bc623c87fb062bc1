import OptLrc.Galois
import OptLrc.Memory

namespace OptLrc.Sockets

open OptLrc.Galois OptLrc.Memory

/-- `MEMCACHED_MAX_BUFFER`. -/
def maxBuffer : Nat := 8196

/-- The errors of a system call that the client tells apart. -/
inductive Errno
  | interrupted
  | again
  | nobufs
  | other
  deriving DecidableEq

/-- What `poll` reports for the one socket it waits for. -/
inductive Polled
  | ready
  | hangup
  | error (isPending : Bool)
  | unexpected
  | timeout
  | interrupted
  | failed
  deriving DecidableEq

/-- The two byte streams of a connection, and what the next system calls will do: a count is the
number of bytes that a `recv` or a `send` moves at most. -/
structure Socket where
  incoming : List Byte
  outgoing : List Byte
  recvs : List (Except Errno Nat)
  sends : List (Except Errno Nat)
  polls : List Polled

/-- The fields of `memcached_instance_st` that its input and output use. -/
structure Instance where
  isOpen : Bool
  readBuffer : List Byte
  readPtr : Nat
  readDataLength : Nat
  readBufferLength : Nat
  writeBuffer : List Byte
  writeBufferOffset : Nat
  responseCount : Nat
  socket : Socket

inductive IoReturn
  | success
  | timeout
  | connectionFailure
  | failure
  | errno
  deriving DecidableEq

/-- `recv` into the read buffer, which blocks while nothing is there. -/
def recv (off room : Nat) (i : Instance) : Except Fault (Except Errno Nat × Instance) :=
  if i.readBuffer.length < off + room then .error .outOfBounds
  else
    match i.socket.recvs with
    | [] => .error .blocked
    | .error e :: recvs => .ok (.error e, { i with socket := { i.socket with recvs := recvs } })
    | .ok n :: recvs =>
      if 0 < n ∧ i.socket.incoming = [] then .error .blocked
      else do
        let data := i.socket.incoming.take (min n room)
        let readBuffer ← writeRange i.readBuffer off data
        return (.ok data.length, { i with
          readBuffer := readBuffer
          socket := { i.socket with incoming := i.socket.incoming.drop data.length, recvs := recvs } })

/-- `send` of a piece of the write buffer. -/
def send (off length : Nat) (i : Instance) : Except Fault (Except Errno Nat × Instance) := do
  let data ← readRange i.writeBuffer off length
  match i.socket.sends with
  | [] => .error .blocked
  | .error e :: sends => return (.error e, { i with socket := { i.socket with sends := sends } })
  | .ok n :: sends =>
    return (.ok (min n length), { i with
      socket := { i.socket with outgoing := i.socket.outgoing ++ data.take n, sends := sends } })

/-- `memcached_quit_server` on the death of the connection. -/
def quitServer (i : Instance) : Instance :=
  { i with isOpen := false, writeBufferOffset := 0, readBufferLength := 0, readPtr := 0, responseCount := 0 }

/-- The loop of `io_wait`, with the turns it has left. -/
def pollLoop : Nat → Instance → Except Fault (IoReturn × Instance)
  | 0, i => .ok (.connectionFailure, quitServer i)
  | turns + 1, i =>
    match i.socket.polls with
    | [] => .error .blocked
    | polled :: polls =>
      let i := { i with socket := { i.socket with polls := polls } }
      match polled with
      | .ready => .ok (.success, i)
      | .hangup => .ok (.connectionFailure, i)
      | .error true => .ok (.errno, quitServer i)
      | .error false => pollLoop turns i
      | .unexpected => .ok (.failure, i)
      | .timeout => .ok (.timeout, i)
      | .interrupted => pollLoop turns i
      | .failed => .ok (.errno, quitServer i)

def ioWait (i : Instance) : Except Fault (IoReturn × Instance) := pollLoop 4 i

/-- `_io_fill`: each turn uses up one `recv`. -/
def ioFillLoop : Nat → Instance → Except Fault (IoReturn × Instance)
  | 0, _ => .error .blocked
  | turns + 1, i => do
    let (dataRead, i) ← recv 0 maxBuffer i
    match dataRead with
    | .error .interrupted => ioFillLoop turns i
    | .error .again =>
      let (rc, i) ← ioWait i
      if rc = .success then ioFillLoop turns i else return (rc, i)
    | .error _ => return (.errno, quitServer i)
    | .ok 0 => return (.connectionFailure, quitServer i)
    | .ok n => return (.success, { i with readDataLength := n, readBufferLength := n, readPtr := 0 })

def ioFill (i : Instance) : Except Fault (IoReturn × Instance) :=
  ioFillLoop (i.socket.recvs.length + 1) i

/-- Only an empty read buffer is filled. -/
def refill (i : Instance) : Except Fault (IoReturn × Instance) :=
  if i.readBufferLength = 0 then ioFill i else .ok (.success, i)

/-- The loop of `memcached_io_read`: each turn copies a byte or more. -/
def ioReadLoop : Nat → Nat → Instance → Except Fault (IoReturn × List Byte × Instance)
  | _, 0, i => .ok (.success, [], i)
  | 0, _ + 1, _ => .error .blocked
  | turns + 1, length + 1, i => do
    let (rc, i) ← refill i
    if rc ≠ .success then return (rc, [], i)
    let difference := min (length + 1) i.readBufferLength
    let data ← readRange i.readBuffer i.readPtr difference
    let (rc, rest, i) ← ioReadLoop turns (length + 1 - difference)
      { i with readPtr := i.readPtr + difference, readBufferLength := i.readBufferLength - difference }
    return (rc, data ++ rest, i)

/-- `memcached_io_read`. -/
def ioRead (length : Nat) (i : Instance) : Except Fault (IoReturn × List Byte × Instance) :=
  if i.isOpen then ioReadLoop length length i else .ok (.connectionFailure, [], i)

/-- The loop of `memcached_safe_read`. -/
def safeReadLoop : Nat → Nat → Instance → Except Fault (IoReturn × List Byte × Instance)
  | _, 0, i => .ok (.success, [], i)
  | 0, _ + 1, _ => .error .blocked
  | turns + 1, size + 1, i => do
    let (rc, data, i) ← ioRead (size + 1) i
    if rc ≠ .success then return (rc, [], i)
    let (rc, rest, i) ← safeReadLoop turns (size + 1 - data.length) i
    return (rc, data ++ rest, i)

def safeRead (size : Nat) (i : Instance) : Except Fault (IoReturn × List Byte × Instance) :=
  safeReadLoop size size i

/-- What is unread moves to the beginning of the read buffer. -/
def moveUnread (i : Instance) : Except Fault Instance := do
  if i.readPtr ≠ 0 then
    let unread ← readRange i.readBuffer i.readPtr i.readBufferLength
    let readBuffer ← writeRange i.readBuffer 0 unread
    return { i with readBuffer := readBuffer, readPtr := 0, readDataLength := i.readBufferLength }
  else return i

/-- `repack_input_buffer`: an interrupted `recv` is not tried again. -/
def repackInputBuffer (i : Instance) : Except Fault (Bool × Instance) := do
  let i ← moveUnread i
  if i.readBufferLength = maxBuffer then return (false, i)
  else
    let (nr, i) ← recv (i.readPtr + i.readDataLength) (maxBuffer - i.readDataLength) i
    match nr with
    | .error _ => return (false, i)
    | .ok 0 => return (false, i)
    | .ok n => return (true, { i with
        readDataLength := i.readDataLength + n, readBufferLength := i.readBufferLength + n })

/-- The loop of `io_flush`: each turn uses up one `send`. A timeout leaves the buffer as it was,
with what was sent of it. -/
def flushLoop : Nat → Nat → Nat → Instance → Except Fault (Bool × Instance)
  | _, _, 0, i => .ok (true, { i with writeBufferOffset := 0 })
  | 0, _, _ + 1, _ => .error .blocked
  | turns + 1, writePtr, length + 1, i => do
    let (sentLength, i) ← send writePtr (length + 1) i
    match sentLength with
    | .ok n => flushLoop turns (writePtr + n) (length + 1 - n) i
    | .error .nobufs => flushLoop turns writePtr (length + 1) i
    | .error .again =>
      let (grown, i) ← repackInputBuffer i
      if grown then flushLoop turns writePtr (length + 1) i
      else
        let (rc, i) ← ioWait i
        if rc = .success then flushLoop turns writePtr (length + 1) i
        else if rc = .timeout then return (false, i)
        else return (false, quitServer i)
    | .error _ => return (false, quitServer i)

def ioFlush (i : Instance) : Except Fault (Bool × Instance) :=
  flushLoop (i.socket.sends.length + 1) 0 i.writeBufferOffset i

def flushWhenFull (i : Instance) : Except Fault (Bool × Instance) :=
  if i.writeBufferOffset = maxBuffer then ioFlush i else .ok (true, i)

/-- The loop of `_io_write`. -/
def ioWriteLoop : Nat → List Byte → Instance → Except Fault (Bool × Instance)
  | _, [], i => .ok (true, i)
  | 0, _ :: _, _ => .error .blocked
  | turns + 1, byte :: bytes, i => do
    let shouldWrite := min (maxBuffer - i.writeBufferOffset) (bytes.length + 1)
    let writeBuffer ← writeRange i.writeBuffer i.writeBufferOffset ((byte :: bytes).take shouldWrite)
    let (sent, i) ← flushWhenFull
      { i with writeBuffer := writeBuffer, writeBufferOffset := i.writeBufferOffset + shouldWrite }
    if sent then ioWriteLoop turns ((byte :: bytes).drop shouldWrite) i else return (false, i)

/-- `_io_write`. -/
def ioWrite (bytes : List Byte) (withFlush : Bool) (i : Instance) : Except Fault (Bool × Instance) := do
  let (written, i) ← ioWriteLoop (bytes.length + 1) bytes i
  if written && withFlush then ioFlush i else return (written, i)

/-- Empty pieces are skipped. -/
def writePiece (piece : List Byte) (i : Instance) : Except Fault (Bool × Instance) :=
  if piece = [] then .ok (true, i) else ioWrite piece false i

/-- The loop of `memcached_io_writev`. -/
def ioWritevLoop : List (List Byte) → Instance → Except Fault (Bool × Instance)
  | [], i => .ok (true, i)
  | piece :: vector, i => do
    let (written, i) ← writePiece piece i
    if written then ioWritevLoop vector i else return (false, i)

/-- `memcached_io_writev`. -/
def ioWritev (vector : List (List Byte)) (withFlush : Bool) (i : Instance) : Except Fault (Bool × Instance) := do
  let (written, i) ← ioWritevLoop vector i
  if written && withFlush then ioWrite [] true i else return (written, i)

/-- What has been received and not been read yet. -/
def Instance.unread (i : Instance) : List Byte := (i.readBuffer.drop i.readPtr).take i.readBufferLength

/-- What the connection still has for its reader. -/
def Instance.stream (i : Instance) : List Byte := i.unread ++ i.socket.incoming

def Instance.unsent (i : Instance) : List Byte := i.writeBuffer.take i.writeBufferOffset

/-- What the connection has taken from its writer. -/
def Instance.written (i : Instance) : List Byte := i.socket.outgoing ++ i.unsent

/-- An open connection whose positions are inside its buffers. -/
structure Sound (i : Instance) : Prop where
  isOpen : i.isOpen = true
  read_length : i.readBuffer.length = maxBuffer
  write_length : i.writeBuffer.length = maxBuffer
  data : i.readPtr + i.readBufferLength = i.readDataLength
  data_le : i.readDataLength ≤ maxBuffer
  offset_le : i.writeBufferOffset ≤ maxBuffer

end OptLrc.Sockets
