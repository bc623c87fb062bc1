import OptLrc.Delivery
import OptLrc.Exchange
import OptLrc.Packets

namespace OptLrc.Responses

open OptLrc.Galois OptLrc.Memory OptLrc.Jerasure OptLrc.Encoder OptLrc.Memcached OptLrc.Exchange OptLrc.Sockets
open OptLrc.Streams OptLrc.Delivery OptLrc.Packets OptLrc.Readers

/-- What reading a response returns: the error of the socket, or a code of the protocol. -/
inductive ReadReturn
  | io (rc : IoReturn)
  | code (rc : ReturnCode)
  deriving DecidableEq

def ReadReturn.fatal : ReadReturn → Bool
  | .io rc => rc ≠ .success
  | .code rc => memcachedFatal rc

/-- The return code, whether the expected replies are counted up, and `memcached_result_st`. -/
structure Reading where
  rc : ReadReturn
  increments : Bool
  result : Result

abbrev ResponseReader := Reader Byte IoReturn Fault Reading

/-- `SMALL_STRING_LEN`. -/
def smallStringLen : Nat := 1024

/-- `sizeof(item_key)`. -/
def maxKey : Nat := 251

/-- Subtraction of `uint32_t`. -/
def sub32 (a b : Nat) : Nat := (a + (2 ^ 32 - b % 2 ^ 32)) % 2 ^ 32

/-- The return code of a status from the wire. -/
def statusReturn (status : Nat) : ReturnCode :=
  if status = 0 then .success
  else if status = 0x01 then .notFound
  else if status = 0x02 then .dataExists
  else if status = 0x05 then .notStored
  else if status = 0x03 then .e2big
  else if status = 0x82 then .memoryAllocationFailure
  else .unknownReadFailure

/-- The body of a hit: flags, key and value. -/
def readItem (header : Header) (increments : Bool) : ResponseReader :=
  .read 4 (fun flags =>
    if maxKey < header.keylen then .stop .outOfBounds
    else .read header.keylen (fun key =>
      .read (sub32 (sub32 header.bodylen header.extlen) header.keylen)
        (fun value => .done ⟨.code .success, increments, ⟨key, ofNet flags, value⟩⟩)
        (fun _ => ⟨.code .unknownReadFailure, increments, ⟨key, ofNet flags, []⟩⟩))
      (fun _ => ⟨.code .unknownReadFailure, increments, ⟨[], ofNet flags, []⟩⟩))
    (fun _ => ⟨.code .unknownReadFailure, increments, .reset⟩)

/-- The text of an error is read in pieces and thrown away. -/
def discard (rc : ReturnCode) (result : Result) : Nat → Nat → ResponseReader
  | _, 0 => .done ⟨.code rc, false, result⟩
  | 0, _ + 1 => .done ⟨.code rc, false, result⟩
  | turns + 1, bodylen + 1 =>
    let nr := min (bodylen + 1) smallStringLen
    .read nr (fun _ => discard rc result turns (bodylen + 1 - nr))
      (fun _ => ⟨.code .unknownReadFailure, false, result⟩)

/-- `binary_read_one_response`. -/
def binaryReadOneResponse (result : Result) : ResponseReader :=
  .read 24 (fun bytes =>
    let header := Header.ofBytes bytes
    if header.magic ≠ magicRes then .done ⟨.code .unknownReadFailure, false, result⟩
    else if header.status = 0 then
      if header.opcode = commandCode .getkq then readItem header true
      else if header.opcode = commandCode .getk then readItem header false
      else if header.opcode = commandCode .set ∨ header.opcode = commandCode .delete then
        .done ⟨.code .success, false, result⟩
      else if header.opcode = commandCode .noop then .done ⟨.code .finished, false, result⟩
      else .done ⟨.code .unknownReadFailure, false, result⟩
    else discard (statusReturn header.status) result header.bodylen header.bodylen)
    (fun rc => ⟨.io rc, false, result⟩)

/-- `memcached_safe_read`, as a source of pieces. -/
def source (size : Nat) (i : Instance) : Except Fault (Except IoReturn (List Byte) × Instance) := do
  let (rc, data, i) ← safeRead size i
  return (if rc = .success then .ok data else .error rc, i)

/-- The counting of a reply, and the end of a connection that failed. -/
def settle (reading : Reading) (i : Instance) : Instance :=
  let i := if reading.increments then { i with responseCount := i.responseCount + 1 } else i
  if reading.rc.fatal then quitServer i else i

/-- `_read_one_response` over the bytes of a connection. -/
def readOneResponseBytes (result : Result) (i : Instance) : Except Fault (ReadReturn × Result × Instance) := do
  let (reading, i) ← (binaryReadOneResponse result).run source { i with responseCount := i.responseCount - 1 }
  return (reading.rc, reading.result, settle reading i)

/-- `while(instance->response_count())`: each turn reads a byte or more, or it ends the connection. -/
def drainLoop : Nat → Instance → Result → Except Fault (Instance × Result)
  | turns, i, result =>
    if i.responseCount = 0 then .ok (i, result)
    else
      match turns with
      | 0 => .error .blocked
      | turns + 1 => do
        let (_, result, i) ← readOneResponseBytes result i
        drainLoop turns i result

def drainBytes (i : Instance) (result : Result) : Except Fault (Instance × Result) :=
  drainLoop (i.stream.length + 1) i result

/-- A reply that its packet can hold, and a key that `item_key` can. -/
structure Fits (tag : Tag) (reply : Reply) : Prop where
  opaqueId : tag.opaqueId < 2 ^ 32
  cas : tag.cas < 2 ^ 64
  text : tag.text.length < 2 ^ 32
  key : reply.key.length ≤ maxKey
  flags : reply.flags < 2 ^ 32
  body : reply.value.length + reply.key.length + 4 < 2 ^ 32

/-- What reading a reply gives. -/
def expected (reply : Reply) (result : Result) : Reading :=
  match reply.status, reply.opcode with
  | .success, .getkq => ⟨.code .success, true, ⟨reply.key, reply.flags, reply.value⟩⟩
  | .success, .getk => ⟨.code .success, false, ⟨reply.key, reply.flags, reply.value⟩⟩
  | .success, .noop => ⟨.code .finished, false, result⟩
  | .success, _ => ⟨.code .success, false, result⟩
  | status, _ => ⟨.code (statusCode status), false, result⟩

theorem discard_reads (rc : ReturnCode) (result : Result) {turns bodylen : Nat} (h : bodylen ≤ turns) (l : List Byte) :
    (discard rc result turns bodylen).parse l = .ok (⟨.code rc, false, result⟩, l.drop bodylen) ∧
      (discard rc result turns bodylen).extent l = bodylen := by
  induction turns generalizing bodylen l with
  | zero =>
    obtain rfl : bodylen = 0 := by omega
    exact ⟨rfl, rfl⟩
  | succ turns ih =>
    cases bodylen with
    | zero => exact ⟨rfl, rfl⟩
    | succ bodylen =>
      have hpos : 0 < min (bodylen + 1) smallStringLen := lt_min (Nat.succ_pos _) (Nat.zero_lt_succ 1023)
      have hle : min (bodylen + 1) smallStringLen ≤ bodylen + 1 := Nat.min_le_left _ _
      simp only [discard, Reader.parse, Reader.extent]
      generalize min (bodylen + 1) smallStringLen = nr at hpos hle
      obtain ⟨hparse, hextent⟩ := ih (show bodylen + 1 - nr ≤ turns by omega) (l.drop nr)
      rw [hparse, hextent, List.drop_drop]
      exact ⟨by rw [Nat.add_sub_cancel' hle], Nat.add_sub_cancel' hle⟩

theorem discard_givesUp {bad : IoReturn → Prop} (rc : ReturnCode) (result : Result) {turns bodylen : Nat} {l : List Byte}
    {reading : Reading} (h : (discard rc result turns bodylen).GivesUp bad l reading) : reading.rc.fatal = true := by
  induction turns generalizing bodylen l with
  | zero => cases bodylen <;> exact h.elim
  | succ turns ih =>
    cases bodylen with
    | zero => exact h.elim
    | succ bodylen =>
      rw [discard] at h
      rcases h with ⟨rc, -, rfl⟩ | h
      · rfl
      · exact ih h

theorem readItem_givesUp {bad : IoReturn → Prop} {header : Header} {increments : Bool} {l : List Byte}
    {reading : Reading} (h : (readItem header increments).GivesUp bad l reading) : reading.rc.fatal = true := by
  rw [readItem] at h
  rcases h with ⟨rc, -, rfl⟩ | h
  · rfl
  · split at h
    · exact h.elim
    · rcases h with ⟨rc, -, rfl⟩ | ⟨rc, -, rfl⟩ | h
      · rfl
      · rfl
      · exact h.elim

/-- A response that cannot be read is a fatal error. -/
theorem binaryReadOneResponse_givesUp {result : Result} {l : List Byte} {reading : Reading}
    (h : (binaryReadOneResponse result).GivesUp (fun rc => rc ≠ .success) l reading) :
    reading.rc.fatal = true := by
  rw [binaryReadOneResponse] at h
  rcases h with ⟨rc, hrc, rfl⟩ | h
  · exact decide_eq_true hrc
  · simp only at h
    split_ifs at h
    · exact h.elim
    · exact readItem_givesUp h
    · exact readItem_givesUp h
    · exact h.elim
    · exact h.elim
    · exact h.elim
    · exact discard_givesUp _ _ h

theorem ofBytes_take {header : Header} (hfits : header.Fits) (rest : List Byte) :
    Header.ofBytes ((header.bytes ++ rest).take 24) = header := by
  have hbytes := Header.ofBytes_bytes hfits []
  rw [List.append_nil] at hbytes
  rw [List.take_left' header.length_bytes, hbytes]

theorem drop_bytes (header : Header) (rest : List Byte) : (header.bytes ++ rest).drop 24 = rest :=
  List.drop_left' header.length_bytes

theorem sub32_eq {a b : Nat} (ha : a < 2 ^ 32) (hb : b ≤ a) : sub32 a b = a - b := by
  unfold sub32
  rw [Nat.mod_eq_of_lt (by omega : b < 2 ^ 32)]
  omega

theorem readItem_reads {header : Header} {key : Key} {value : Block} {flags : Nat} (increments : Bool)
    (hkeylen : header.keylen = key.length) (hextlen : header.extlen = 4)
    (hbodylen : header.bodylen = value.length + key.length + 4) (hkey : key.length ≤ maxKey) (hflags : flags < 2 ^ 32)
    (hbody : value.length + key.length + 4 < 2 ^ 32) (rest : List Byte) :
    (readItem header increments).parse (net 4 flags ++ key ++ value ++ rest) =
        .ok (⟨.code .success, increments, ⟨key, flags, value⟩⟩, rest) ∧
      (readItem header increments).extent (net 4 flags ++ key ++ value ++ rest) = 4 + key.length + value.length := by
  have hvalue : sub32 (sub32 (value.length + key.length + 4) 4) key.length = value.length := by
    rw [sub32_eq hbody (by omega), sub32_eq (by omega) (by omega)]
    omega
  have hnet : ofNet (net 4 flags) = flags := by
    rw [ofNet_net]
    exact Nat.mod_eq_of_lt hflags
  have hfour := length_net 4 flags
  have hguard : ¬ maxKey < key.length := by omega
  rw [readItem, hkeylen, hextlen, hbodylen, hvalue, List.append_assoc, List.append_assoc]
  simp only [Reader.parse, Reader.extent, if_neg hguard, List.take_left' hfour, List.drop_left' hfour,
    List.take_left, List.drop_left, hnet, true_and]
  omega

/-- What is done with the header of a success. -/
theorem getResponse_reads {tag : Tag} {opcode : Opcode} {key : Key} {value : Block} {flags : Nat} {increments : Bool}
    (hop : opcode = .getkq ∧ increments = true ∨ opcode = .getk ∧ increments = false)
    (hfits : Fits tag ⟨opcode, .success, key, flags, value⟩) (result : Result) (rest : List Byte) :
    (binaryReadOneResponse result).parse (getResponse tag opcode key value flags ++ rest) =
        .ok (⟨.code .success, increments, ⟨key, flags, value⟩⟩, rest) ∧
      (binaryReadOneResponse result).extent (getResponse tag opcode key value flags ++ rest) =
        (getResponse tag opcode key value flags).length := by
  obtain ⟨hident, hcas, -, hkey, hflags, hbody⟩ := hfits
  simp only at hkey hflags hbody
  have hmax : maxKey = 251 := rfl
  have hh := responseHeader_fits hident hcas opcode .success key.length (Nat.lt_of_sub_eq_succ rfl : 4 < 256)
    (value.length + key.length + 4)
  have hitem := @readItem_reads (responseHeader tag opcode .success key.length 4 (value.length + key.length + 4)) key
    value flags increments (Nat.mod_eq_of_lt (by omega)) rfl (Nat.mod_eq_of_lt hbody) hkey hflags hbody rest
  rw [getResponse, List.append_assoc, List.append_assoc, List.append_assoc, binaryReadOneResponse]
  simp only [List.append_assoc] at hitem
  simp only [Reader.parse, Reader.extent]
  rw [ofBytes_take hh, drop_bytes]
  rcases hop with ⟨rfl, rfl⟩ | ⟨rfl, rfl⟩
  · refine ⟨hitem.1, ?_⟩
    exact (congrArg (24 + ·) hitem.2).trans (by simp; omega)
  · refine ⟨hitem.1, ?_⟩
    exact (congrArg (24 + ·) hitem.2).trans (by simp; omega)

theorem noExtras_reads {tag : Tag} {opcode : Opcode} {status : Status} {text : List Byte} (hident : tag.opaqueId < 2 ^ 32)
    (hcas : tag.cas < 2 ^ 64) (htext : text.length < 2 ^ 32) (hstatus : status ≠ .success) (result : Result)
    (rest : List Byte) :
    (binaryReadOneResponse result).parse (noExtras tag opcode status text ++ rest) =
        .ok (⟨.code (statusCode status), false, result⟩, rest) ∧
      (binaryReadOneResponse result).extent (noExtras tag opcode status text ++ rest) =
        (noExtras tag opcode status text).length := by
  have hh := responseHeader_fits hident hcas opcode status 0 (Nat.zero_lt_succ 255) text.length
  have hbodylen : (responseHeader tag opcode status 0 0 text.length).bodylen = text.length := Nat.mod_eq_of_lt htext
  have hreturn : statusReturn (statusNumber status) = statusCode status := by cases status <;> rfl
  have hne : statusNumber status ≠ 0 := by
    cases status with
    | success => exact absurd rfl hstatus
    | _ => decide
  obtain ⟨hparse, hextent⟩ := discard_reads (statusCode status) result (le_refl text.length) (text ++ rest)
  rw [List.drop_left] at hparse
  rw [noExtras, List.append_assoc, binaryReadOneResponse]
  simp only [Reader.parse, Reader.extent]
  rw [ofBytes_take hh, drop_bytes, hbodylen]
  simp only [responseHeader, ne_eq, not_true_eq_false, if_false, hne, hreturn, hparse, hextent, List.length_append,
    Header.length_bytes, and_self]

theorem noExtras_success_reads {tag : Tag} {reply : Reply} (hident : tag.opaqueId < 2 ^ 32) (hcas : tag.cas < 2 ^ 64)
    (hstatus : reply.status = .success)
    (hop : reply.opcode = .set ∨ reply.opcode = .delete ∨ reply.opcode = .noop) (result : Result) (rest : List Byte) :
    (binaryReadOneResponse result).parse (noExtras tag reply.opcode .success [] ++ rest) =
        .ok (expected reply result, rest) ∧
      (binaryReadOneResponse result).extent (noExtras tag reply.opcode .success [] ++ rest) =
        (noExtras tag reply.opcode .success []).length := by
  have hh := responseHeader_fits hident hcas reply.opcode .success 0 (Nat.zero_lt_succ 255) ([] : List Byte).length
  rw [noExtras, List.append_nil, binaryReadOneResponse]
  simp only [Reader.parse, Reader.extent]
  rw [ofBytes_take hh, drop_bytes, expected, hstatus, Header.length_bytes]
  rcases hop with h | h | h
  · rw [h]
    exact ⟨rfl, rfl⟩
  · rw [h]
    exact ⟨rfl, rfl⟩
  · rw [h]
    exact ⟨rfl, rfl⟩

theorem responseBytes_error (tag : Tag) {reply : Reply} (hstatus : reply.status ≠ .success) :
    responseBytes tag reply = noExtras tag reply.opcode reply.status tag.text := by
  rw [responseBytes]
  split
  · exact absurd ‹_› hstatus
  · exact absurd ‹_› hstatus
  · exact absurd ‹_› hstatus
  · rfl

theorem expected_error {reply : Reply} (hstatus : reply.status ≠ .success) (result : Result) :
    expected reply result = ⟨.code (statusCode reply.status), false, result⟩ := by
  rw [expected]
  split
  · exact absurd ‹_› hstatus
  · exact absurd ‹_› hstatus
  · exact absurd ‹_› hstatus
  · exact absurd ‹_› hstatus
  · rfl

/-- One reply at the front of the bytes is read as that reply, and nothing behind it. -/
theorem responseBytes_reads {tag : Tag} {reply : Reply} (hfits : Fits tag reply) (result : Result) (rest : List Byte) :
    (binaryReadOneResponse result).parse (responseBytes tag reply ++ rest) = .ok (expected reply result, rest) ∧
      (binaryReadOneResponse result).extent (responseBytes tag reply ++ rest) = (responseBytes tag reply).length := by
  have hident := hfits.opaqueId
  have hcas := hfits.cas
  by_cases hstatus : reply.status = .success
  · obtain ⟨opcode, status, key, flags, value⟩ := reply
    obtain rfl : status = .success := hstatus
    cases opcode with
    | getk => exact getResponse_reads (.inr ⟨rfl, rfl⟩) hfits result rest
    | getkq => exact getResponse_reads (.inl ⟨rfl, rfl⟩) hfits result rest
    | set => exact @noExtras_success_reads tag ⟨.set, .success, key, flags, value⟩ hident hcas rfl (by simp) result rest
    | delete =>
      exact @noExtras_success_reads tag ⟨.delete, .success, key, flags, value⟩ hident hcas rfl (by simp) result rest
    | noop =>
      exact @noExtras_success_reads tag ⟨.noop, .success, key, flags, value⟩ hident hcas rfl (by simp) result rest
  · rw [responseBytes_error tag hstatus, expected_error hstatus]
    exact noExtras_reads hident hcas hfits.text hstatus result rest

/-- The replies that a connection has for its reader are in its stream. -/
structure Carries (conn : Conn) (i : Instance) : Prop where
  count : i.responseCount = conn.responseCount
  stream : ∃ tagged : List (Tag × Reply), tagged.map Prod.snd = conn.inbox ∧ (∀ p ∈ tagged, Fits p.1 p.2) ∧
    i.stream = tagged.flatMap (fun p => responseBytes p.1 p.2)

/-- A connection that has been given up. -/
def Closed (i : Instance) : Prop := quitServer i = i

theorem closed_quitServer (i : Instance) : Closed (quitServer i) := rfl

theorem source_ready {k : Instance} (need size : Nat) (i : Instance) (h : Ready need i ∧ SameOutput k i)
    (hsize : size ≤ need) : ∃ j, source size i = .ok (.ok (i.stream.take size), j) ∧
      j.stream = i.stream.drop size ∧ Ready (need - size) j ∧ SameOutput k j := by
  obtain ⟨j, hj, hstream, hready, hsame⟩ := safeRead_ready h.1 hsize
  refine ⟨j, ?_, hstream, hready, h.2.trans hsame⟩
  rw [source, hj]
  rfl

theorem source_sound {k : Instance} (size : Nat) (i : Instance) (h : Sound i ∧ SameOutput k i) :
    source size i = .error .blocked ∨
    (∃ rc j, source size i = .ok (.error rc, j) ∧ rc ≠ .success) ∨
    ∃ data j, source size i = .ok (.ok data, j) ∧
      (Sound j ∧ SameOutput k j) ∧ i.stream = data ++ j.stream ∧ data.length = size := by
  have hends := safeReadLoop_ends size size h.1
  rw [← safeRead] at hends
  cases hread : safeRead size i with
  | error e =>
    rw [hread] at hends
    obtain rfl : e = .blocked := hends
    exact .inl (by rw [source, hread]; rfl)
  | ok p =>
    obtain ⟨rc, data, j⟩ := p
    rw [hread] at hends
    by_cases hrc : rc = .success
    · obtain ⟨hsound, hsame, hstream, hlen⟩ := hends.2 hrc
      refine .inr (.inr ⟨data, j, ?_, ⟨hsound, h.2.trans hsame⟩, hstream, hlen⟩)
      rw [source, hread, hrc]
      rfl
    · refine .inr (.inl ⟨rc, j, ?_, hrc⟩)
      rw [source, hread]
      simp [hrc]

variable {conn conn' : Conn} {i : Instance} {rc : ReturnCode} {result result' : Result}

/-- The first reply of the inbox decides what reading it gives and what it leaves. -/
theorem readOneResponse_expected {reply : Reply} {rest : List Reply} (hinbox : conn.inbox = reply :: rest)
    (hok : readOneResponse conn result = .ok (rc, conn', result')) :
    expected reply result = ⟨.code rc, (expected reply result).increments, result'⟩ ∧
      (memcachedFatal rc = true → conn' = .idle) ∧
      (memcachedFatal rc = false → conn'.inbox = rest ∧ conn'.responseCount =
        if (expected reply result).increments then conn.responseCount - 1 + 1 else conn.responseCount - 1) := by
  obtain ⟨opcode, status, key, flags, value⟩ := reply
  rw [readOneResponse, hinbox] at hok
  cases status with
  | success =>
    cases opcode <;> (obtain ⟨rfl, rfl, rfl⟩ := hok; exact ⟨rfl, nofun, fun _ => ⟨rfl, rfl⟩⟩)
  | _ =>
    obtain ⟨rfl, rfl, rfl⟩ := hok
    simp [expected, statusCode, memcachedFatal]

theorem settle_of_fatal {reading : Reading} (h : reading.rc.fatal = true) (i : Instance) : Closed (settle reading i) := by
  rw [settle, if_pos h]
  exact closed_quitServer _

theorem settle_of_not_fatal {reading : Reading} (h : reading.rc.fatal = false) (i : Instance) :
    settle reading i = { i with
      responseCount := if reading.increments then i.responseCount + 1 else i.responseCount } := by
  rw [settle, h]
  cases reading.increments <;> rfl

theorem sound_setCount (h : Sound i) (n : Nat) : Sound { i with responseCount := n } :=
  ⟨h.isOpen, h.read_length, h.write_length, h.data, h.data_le, h.offset_le⟩

theorem ready_setCount {need : Nat} (h : Ready need i) (n : Nat) : Ready need { i with responseCount := n } :=
  ⟨sound_setCount h.sound n, h.enough, h.live⟩

theorem carries_settle {j : Instance} {reply : Reply} {tagged : List (Tag × Reply)}
    (hcount : i.responseCount = conn.responseCount) (hinbox : conn.inbox = reply :: tagged.map Prod.snd)
    (hfits : ∀ p ∈ tagged, Fits p.1 p.2) (hok : readOneResponse conn result = .ok (rc, conn', result'))
    (hstream : j.stream = tagged.flatMap (fun p => responseBytes p.1 p.2))
    (hsame : SameOutput { i with responseCount := i.responseCount - 1 } j) (hrc : memcachedFatal rc = false) :
    Carries conn' (settle (expected reply result) j) := by
  obtain ⟨hexp, -, hkeep⟩ := readOneResponse_expected hinbox hok
  obtain ⟨hinbox', hcount'⟩ := hkeep hrc
  rw [settle_of_not_fatal (by rw [hexp]; exact hrc)]
  refine ⟨?_, tagged, hinbox'.symm, hfits, hstream⟩
  rw [hcount', hsame.count, hcount]

/-- Under any schedule, reading a response waits for ever, ends the connection, or does what it does
on the replies. -/
theorem readOneResponseBytes_ends (hsound : Sound i) (hcarries : Carries conn i)
    (hok : readOneResponse conn result = .ok (rc, conn', result')) :
    Ends (readOneResponseBytes result i) (fun p => Closed p.2.2 ∨
      p.1 = .code rc ∧ p.2.1 = result' ∧ memcachedFatal rc = false ∧ Sound p.2.2 ∧ Carries conn' p.2.2) := by
  obtain ⟨hcount, tagged, hinbox, hfits, hstream⟩ := hcarries
  cases tagged with
  | nil =>
    rw [readOneResponse, ← hinbox] at hok
    cases hok
  | cons first tagged =>
    obtain ⟨tag, reply⟩ := first
    rw [List.flatMap_cons] at hstream
    have hreads := responseBytes_reads (hfits _ List.mem_cons_self) result
      (tagged.flatMap (fun p => responseBytes p.1 p.2))
    rw [← hstream] at hreads
    rw [readOneResponseBytes]
    rcases Reader.run_of_sound source_sound (binaryReadOneResponse result)
      ⟨sound_setCount hsound (i.responseCount - 1), SameOutput.refl _⟩ with
      hrun | ⟨e, hparse, hrun⟩ | ⟨reading, j, hrun, ⟨hparse, hsound', hsame⟩ | hgives⟩
    · rw [hrun]
      exact ends_blocked
    · cases hreads.1.symm.trans hparse
    · obtain ⟨rfl, hstream'⟩ := Prod.mk.inj (Except.ok.inj (hreads.1.symm.trans hparse))
      rw [hrun]
      have hexp := (readOneResponse_expected hinbox.symm hok).1
      cases hrc : memcachedFatal rc with
      | true => exact .inl (settle_of_fatal (by rw [hexp]; exact hrc) j)
      | false =>
        refine .inr ⟨by rw [hexp], by rw [hexp], rfl, ?_, ?_⟩
        · simp only
          rw [settle_of_not_fatal (by rw [hexp]; exact hrc)]
          exact sound_setCount hsound' _
        · exact carries_settle hcount hinbox.symm (fun p hp => hfits p (List.mem_cons_of_mem _ hp)) hok hstream'.symm
            hsame hrc
    · rw [hrun]
      exact .inl (settle_of_fatal (binaryReadOneResponse_givesUp hgives) j)

/-- A schedule that brings the replies makes reading a response do what it does on the replies. -/
theorem readOneResponseBytes_ready (hready : Ready i.stream.length i) (hcarries : Carries conn i)
    (hok : readOneResponse conn result = .ok (rc, conn', result')) :
    ∃ j, readOneResponseBytes result i = .ok (.code rc, result', j) ∧
      (memcachedFatal rc = true ∧ Closed j ∧ conn' = .idle ∨
        memcachedFatal rc = false ∧ Ready j.stream.length j ∧ Carries conn' j) := by
  obtain ⟨hcount, tagged, hinbox, hfits, hstream⟩ := hcarries
  cases tagged with
  | nil =>
    rw [readOneResponse, ← hinbox] at hok
    cases hok
  | cons first tagged =>
    obtain ⟨tag, reply⟩ := first
    rw [List.flatMap_cons] at hstream
    obtain ⟨hparse, hextent⟩ := responseBytes_reads (hfits _ List.mem_cons_self) result
      (tagged.flatMap (fun p => responseBytes p.1 p.2))
    rw [← hstream] at hparse hextent
    have hlen := congrArg List.length hstream
    rw [List.length_append] at hlen
    obtain ⟨j, hrun, hstream', hready', hsame⟩ := Reader.run_of_ready source_ready (binaryReadOneResponse result)
      ⟨ready_setCount hready (i.responseCount - 1), SameOutput.refl _⟩
      (hextent.le.trans (by omega)) hparse
    have hneed : i.stream.length - (responseBytes tag reply).length = j.stream.length := by
      rw [hstream', hlen, Nat.add_sub_cancel_left]
    have hrest : Ready j.stream.length j := by
      rw [← hneed, ← hextent]
      exact hready'
    obtain ⟨hexp, hidle, -⟩ := readOneResponse_expected hinbox.symm hok
    refine ⟨settle (expected reply result) j, ?_, ?_⟩
    · rw [readOneResponseBytes, hrun, hexp]
      rfl
    · cases hrc : memcachedFatal rc with
      | true => exact .inl ⟨rfl, settle_of_fatal (by rw [hexp]; exact hrc) j, hidle hrc⟩
      | false =>
        refine .inr ⟨rfl, ?_, carries_settle hcount hinbox.symm (fun p hp => hfits p (List.mem_cons_of_mem _ hp)) hok
          hstream' hsame hrc⟩
        rw [settle_of_not_fatal (by rw [hexp]; exact hrc)]
        exact ready_setCount hrest _

theorem drainLoop_done (turns : Nat) (h : i.responseCount = 0) (result : Result) :
    drainLoop turns i result = .ok (i, result) := by
  cases turns <;> rw [drainLoop, if_pos h]

theorem drainConn_done (turns : Nat) (h : conn.responseCount = 0) (result : Result) :
    drainConn turns conn result = .ok (conn, result) := by
  cases turns <;> rw [drainConn, if_pos h]

theorem drainLoop_ends {turns : Nat} (hsound : Sound i) (hcarries : Carries conn i)
    (hok : drainConn turns conn result = .ok (conn', result')) (turns' : Nat) :
    Ends (drainLoop turns' i result) (fun p => Closed p.1 ∨ p.2 = result' ∧ Sound p.1 ∧ Carries conn' p.1) := by
  induction turns generalizing turns' i conn result with
  | zero =>
    by_cases h0 : conn.responseCount = 0
    · rw [drainConn_done 0 h0] at hok
      obtain ⟨rfl, rfl⟩ := Prod.mk.inj (Except.ok.inj hok)
      rw [drainLoop_done turns' (hcarries.count.trans h0)]
      exact .inr ⟨rfl, hsound, hcarries⟩
    · rw [drainConn, if_neg h0] at hok
      cases hok
  | succ turns ih =>
    by_cases h0 : conn.responseCount = 0
    · rw [drainConn_done _ h0] at hok
      obtain ⟨rfl, rfl⟩ := Prod.mk.inj (Except.ok.inj hok)
      rw [drainLoop_done turns' (hcarries.count.trans h0)]
      exact .inr ⟨rfl, hsound, hcarries⟩
    · rw [drainConn, if_neg h0, bind_eq_ok] at hok
      obtain ⟨⟨rc, conn₁, result₁⟩, hread, hdrain⟩ := hok
      have hne : i.responseCount ≠ 0 := by rwa [hcarries.count]
      cases turns' with
      | zero =>
        rw [drainLoop, if_neg hne]
        exact ends_blocked
      | succ turns' =>
        rw [drainLoop, if_neg hne]
        apply (readOneResponseBytes_ends hsound hcarries hread).bind
        rintro ⟨rc', result'', j⟩ (hclosed | ⟨-, rfl, -, hsound', hcarries'⟩)
        · simp only at hclosed ⊢
          rw [drainLoop_done turns' (congrArg Instance.responseCount hclosed).symm]
          exact .inl hclosed
        · exact ih hsound' hcarries' hdrain turns'

/-- Under any schedule, draining a connection waits for ever, ends the connection, or does what it
does on the replies. -/
theorem drainBytes_ends (hsound : Sound i) (hcarries : Carries conn i)
    (hok : drainConn conn.inbox.length conn result = .ok (conn', result')) :
    Ends (drainBytes i result) (fun p => Closed p.1 ∨ p.2 = result' ∧ Sound p.1 ∧ Carries conn' p.1) :=
  drainLoop_ends hsound hcarries hok _

theorem drainLoop_ready {turns turns' : Nat} (hready : Ready i.stream.length i) (hcarries : Carries conn i)
    (hok : drainConn turns conn result = .ok (conn', result')) (hturns : turns ≤ turns') :
    ∃ j, drainLoop turns' i result = .ok (j, result') ∧
      (Closed j ∧ conn' = .idle ∨ Ready j.stream.length j ∧ Carries conn' j) := by
  induction turns generalizing turns' i conn result with
  | zero =>
    by_cases h0 : conn.responseCount = 0
    · rw [drainConn_done 0 h0] at hok
      obtain ⟨rfl, rfl⟩ := Prod.mk.inj (Except.ok.inj hok)
      exact ⟨i, drainLoop_done turns' (hcarries.count.trans h0) result, .inr ⟨hready, hcarries⟩⟩
    · rw [drainConn, if_neg h0] at hok
      cases hok
  | succ turns ih =>
    by_cases h0 : conn.responseCount = 0
    · rw [drainConn_done _ h0] at hok
      obtain ⟨rfl, rfl⟩ := Prod.mk.inj (Except.ok.inj hok)
      exact ⟨i, drainLoop_done turns' (hcarries.count.trans h0) result, .inr ⟨hready, hcarries⟩⟩
    · rw [drainConn, if_neg h0, bind_eq_ok] at hok
      obtain ⟨⟨rc, conn₁, result₁⟩, hread, hdrain⟩ := hok
      obtain ⟨turns', rfl⟩ : ∃ n, turns' = n + 1 := ⟨turns' - 1, by omega⟩
      rw [drainLoop, if_neg (by rwa [hcarries.count])]
      obtain ⟨j, hj, ⟨-, hclosed, rfl⟩ | ⟨-, hready', hcarries'⟩⟩ := readOneResponseBytes_ready hready hcarries hread
      · simp only at hdrain
        rw [drainConn_done turns rfl] at hdrain
        obtain ⟨rfl, rfl⟩ := Prod.mk.inj (Except.ok.inj hdrain)
        rw [hj, ok_bind]
        exact ⟨j, drainLoop_done turns' (congrArg Instance.responseCount hclosed).symm _, .inl ⟨hclosed, rfl⟩⟩
      · simp only [hj, ok_bind]
        exact ih hready' hcarries' hdrain (by omega)

theorem length_responseBytes (tag : Tag) (reply : Reply) : 24 ≤ (responseBytes tag reply).length := by
  rw [responseBytes]
  split <;> simp only [getResponse, noExtras, List.length_append, Header.length_bytes] <;> omega

theorem length_inbox_le (hcarries : Carries conn i) : conn.inbox.length ≤ i.stream.length := by
  obtain ⟨-, tagged, hinbox, -, hstream⟩ := hcarries
  rw [← hinbox, hstream, List.length_map]
  clear hinbox hstream
  induction tagged with
  | nil => exact Nat.zero_le _
  | cons p tagged ih =>
    have hlen := length_responseBytes p.1 p.2
    rw [List.flatMap_cons, List.length_append, List.length_cons]
    omega

/-- A schedule that brings the replies makes draining a connection do what it does on the replies. -/
theorem drainBytes_ready (hready : Ready i.stream.length i) (hcarries : Carries conn i)
    (hok : drainConn conn.inbox.length conn result = .ok (conn', result')) :
    ∃ j, drainBytes i result = .ok (j, result') ∧
      (Closed j ∧ conn' = .idle ∨ Ready j.stream.length j ∧ Carries conn' j) :=
  drainLoop_ready hready hcarries hok ((length_inbox_le hcarries).trans (Nat.le_succ _))

/-- A hit and the end of a get, on a connection that owes one reply. -/
def sampleConn : Conn := ⟨[], [.hit .getkq [1] ⟨[1, 0], 0, 0⟩, .ok .noop], 1⟩

/-- Its bytes, which come eight at a time after a wait. -/
@[irreducible] def repliesInstance : Instance :=
  { connected ⟨(sampleConn.inbox.map (responseBytes ⟨7, 1, []⟩)).flatten, [],
      .error .again :: List.replicate 55 (.ok 8), [], List.replicate 56 .ready⟩ with responseCount := 1 }

theorem carries_repliesInstance : Carries sampleConn repliesInstance := by
  rw [repliesInstance]
  refine ⟨rfl, sampleConn.inbox.map (fun reply => (⟨7, 1, []⟩, reply)), rfl, ?_, rfl⟩
  intro p hp
  simp only [sampleConn, List.map_cons, List.map_nil, List.mem_cons, List.not_mem_nil, or_false] at hp
  rcases hp with rfl | rfl
  · exact ⟨by decide, by decide, by decide, by decide, by decide, by decide⟩
  · exact ⟨by decide, by decide, by decide, by decide, by decide, by decide⟩

theorem ready_repliesInstance : Ready repliesInstance.stream.length repliesInstance := by
  rw [repliesInstance]
  refine ⟨sound_setCount (sound_connected _) 1, le_rfl, ?_, by decide, ?_, by decide⟩
  · intro res hres
    rcases List.mem_cons.mp hres with rfl | hres
    · exact .inr (.inl rfl)
    · exact .inr (.inr ⟨7, List.eq_of_mem_replicate hres⟩)
  · exact fun polled hpolled => List.eq_of_mem_replicate hpolled

theorem drainBytes_ends_replies : Sound repliesInstance ∧ Carries sampleConn repliesInstance ∧
    Ends (drainBytes repliesInstance .reset) (fun p => Closed p.1 ∨
      p.2 = ⟨[1], 0, [1, 0]⟩ ∧ Sound p.1 ∧ Carries ⟨[], [], 0⟩ p.1) :=
  ⟨ready_repliesInstance.sound, carries_repliesInstance,
    drainBytes_ends ready_repliesInstance.sound carries_repliesInstance rfl⟩

theorem drainBytes_ready_replies : ∃ j, drainBytes repliesInstance .reset = .ok (j, ⟨[1], 0, [1, 0]⟩) ∧
    (Closed j ∧ (⟨[], [], 0⟩ : Conn) = .idle ∨ Ready j.stream.length j ∧ Carries ⟨[], [], 0⟩ j) :=
  drainBytes_ready ready_repliesInstance carries_repliesInstance rfl

end OptLrc.Responses
