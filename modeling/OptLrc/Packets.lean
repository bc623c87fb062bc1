import OptLrc.Memcached

namespace OptLrc.Packets

open OptLrc.Galois OptLrc.Memory OptLrc.Jerasure OptLrc.Encoder OptLrc.Memcached

/-- The last `width` bytes of a number, in network order. -/
def net : Nat → Nat → List Byte
  | 0, _ => []
  | width + 1, n => Byte.ofNat (n / 256 ^ width) :: net width n

def ofNet (bytes : List Byte) : Nat := bytes.foldl (fun n b => n * 256 + b.toNat) 0

@[simp] theorem length_net (width n : Nat) : (net width n).length = width := by
  induction width with
  | zero => rfl
  | succ width ih => rw [net, List.length_cons, ih]

theorem toNat_ofNat (n : Nat) : (Byte.ofNat n).toNat = n % 256 := BitVec.toNat_ofNat n 8

theorem foldl_net (width n a : Nat) :
    (net width n).foldl (fun n b => n * 256 + b.toNat) a = a * 256 ^ width + n % 256 ^ width := by
  induction width generalizing a with
  | zero => simp [net, Nat.mod_one]
  | succ width ih =>
    rw [net, List.foldl_cons, ih, toNat_ofNat, Nat.mod_pow_succ, Nat.pow_succ, Nat.add_mul, Nat.mul_assoc,
      Nat.mul_comm 256, Nat.mul_comm (n / 256 ^ width % 256), Nat.add_assoc, Nat.add_comm (n % 256 ^ width)]

@[simp] theorem ofNet_net (width n : Nat) : ofNet (net width n) = n % 256 ^ width := by
  rw [ofNet, foldl_net, Nat.zero_mul, Nat.zero_add]

/-- `protocol_binary_request_header`, and `protocol_binary_response_header` with a status for
`vbucket`. -/
structure Header where
  magic : Nat
  opcode : Nat
  keylen : Nat
  extlen : Nat
  datatype : Nat
  status : Nat
  bodylen : Nat
  opaqueId : Nat
  cas : Nat

def Header.bytes (h : Header) : List Byte :=
  net 1 h.magic ++ net 1 h.opcode ++ net 2 h.keylen ++ net 1 h.extlen ++ net 1 h.datatype ++ net 2 h.status ++
    net 4 h.bodylen ++ net 4 h.opaqueId ++ net 8 h.cas

/-- The field of `width` bytes at an offset of a packet. -/
def field (packet : List Byte) (off width : Nat) : Nat := ofNet ((packet.drop off).take width)

def Header.ofBytes (packet : List Byte) : Header where
  magic := field packet 0 1
  opcode := field packet 1 1
  keylen := field packet 2 2
  extlen := field packet 4 1
  datatype := field packet 5 1
  status := field packet 6 2
  bodylen := field packet 8 4
  opaqueId := field packet 12 4
  cas := field packet 16 8

@[simp] theorem Header.length_bytes (h : Header) : h.bytes.length = 24 := by simp [Header.bytes]

/-- A header whose fields fit. -/
structure Header.Fits (h : Header) : Prop where
  magic : h.magic < 256
  opcode : h.opcode < 256
  keylen : h.keylen < 256 ^ 2
  extlen : h.extlen < 256
  datatype : h.datatype < 256
  status : h.status < 256 ^ 2
  bodylen : h.bodylen < 256 ^ 4
  opaqueId : h.opaqueId < 256 ^ 4
  cas : h.cas < 256 ^ 8

theorem field_here {b c : List Byte} {width : Nat} (hb : b.length = width) : field (b ++ c) 0 width = ofNet b := by
  rw [field, List.drop_zero, List.take_left' hb]

theorem field_skip {a b : List Byte} {off : Nat} (ha : a.length ≤ off) (width : Nat) :
    field (a ++ b) off width = field b (off - a.length) width := by
  rw [field, field, List.drop_append, List.drop_of_length_le ha, List.nil_append]

theorem Header.ofBytes_bytes {h : Header} (hfits : h.Fits) (rest : List Byte) :
    Header.ofBytes (h.bytes ++ rest) = h := by
  obtain ⟨h1, h2, h3, h4, h5, h6, h7, h8, h9⟩ := hfits
  obtain ⟨magic, opcode, keylen, extlen, datatype, status, bodylen, opaqueId, cas⟩ := h
  simp only [Nat.reducePow] at h1 h2 h3 h4 h5 h6 h7 h8 h9
  simp only [Header.ofBytes, Header.bytes, List.append_assoc, Header.mk.injEq]
  refine ⟨?_, ?_, ?_, ?_, ?_, ?_, ?_, ?_, ?_⟩ <;> simp [field_here, field_skip, Nat.mod_eq_of_lt, *]

def magicReq : Nat := 0x80

def magicRes : Nat := 0x81

/-- `PROTOCOL_BINARY_CMD_*`. -/
def commandCode : Opcode → Nat
  | .set => 0x01
  | .delete => 0x04
  | .noop => 0x0a
  | .getk => 0x0c
  | .getkq => 0x0d

/-- `PROTOCOL_BINARY_RESPONSE_*`. -/
def statusNumber : Status → Nat
  | .success => 0x00
  | .keyEnoent => 0x01
  | .keyEexists => 0x02
  | .e2big => 0x03
  | .einval => 0x04
  | .notStored => 0x05
  | .enomem => 0x82

/-- The header of a request, after `initialize_binary_request`: the number of the request is
written in network order into the first half of a field that is sent as it is. -/
def requestHeader (requestId : Nat) (opcode : Opcode) (keylen extlen bodylen : Nat) : Header :=
  ⟨magicReq, commandCode opcode, keylen % 2 ^ 16, extlen, 0, 0, bodylen % 2 ^ 32, requestId % 2 ^ 16 * 2 ^ 16, 0⟩

/-- The pieces that `memcached_send_binary`, `memcached_lrc_send_binary`, `simple_binary_mget` and
`binary_delete` write for a request, the third one (and in a get the second) for the namespace. -/
def requestVector (requestId : Nat) : Request → List (List Byte)
  | .set key value flags expiration =>
    [[], (requestHeader requestId .set key.length 8 (key.length + value.length + 8)).bytes ++ net 4 flags ++
      net 4 expiration, [], key, value]
  | .getk key => [(requestHeader requestId .getk key.length 0 key.length).bytes, [], key]
  | .getkq key => [(requestHeader requestId .getkq key.length 0 key.length).bytes, [], key]
  | .noop => [(requestHeader requestId .noop 0 0 0).bytes]
  | .delete key => [[], (requestHeader requestId .delete key.length 0 key.length).bytes, [], key]

def requestBytes (requestId : Nat) (q : Request) : List Byte := (requestVector requestId q).flatten

/-- What the wire adds to a reply. -/
structure Tag where
  opaqueId : Nat
  cas : Nat
  text : List Byte

def responseHeader (tag : Tag) (opcode : Opcode) (status : Status) (keylen extlen bodylen : Nat) : Header :=
  ⟨magicRes, commandCode opcode, keylen % 2 ^ 16, extlen, 0, statusNumber status, bodylen % 2 ^ 32, tag.opaqueId,
    tag.cas⟩

theorem responseHeader_fits {tag : Tag} (hident : tag.opaqueId < 2 ^ 32) (hcas : tag.cas < 2 ^ 64) (opcode : Opcode)
    (status : Status) (keylen : Nat) {extlen : Nat} (hextlen : extlen < 256) (bodylen : Nat) :
    (responseHeader tag opcode status keylen extlen bodylen).Fits := by
  have hopcode : commandCode opcode < 256 := by cases opcode <;> decide
  have hstatus : statusNumber status < 256 ^ 2 := by cases status <;> decide
  exact ⟨Nat.lt_of_sub_eq_succ rfl, hopcode, Nat.mod_lt _ (Nat.two_pow_pos 16), hextlen, Nat.zero_lt_succ 255, hstatus,
    Nat.mod_lt _ (Nat.two_pow_pos 32), hident, hcas⟩

/-- The response of `get_response_handler` to a get that found its key. -/
def getResponse (tag : Tag) (opcode : Opcode) (key : Key) (body : Block) (flags : Nat) : List Byte :=
  (responseHeader tag opcode .success key.length 4 (body.length + key.length + 4)).bytes ++ net 4 flags ++ key ++ body

/-- A response without extras, key or value: a success, or an error with a text. -/
def noExtras (tag : Tag) (opcode : Opcode) (status : Status) (text : List Byte) : List Byte :=
  (responseHeader tag opcode status 0 0 text.length).bytes ++ text

/-- A reply on the wire. -/
def responseBytes (tag : Tag) (reply : Reply) : List Byte :=
  match reply.status, reply.opcode with
  | .success, .getk => getResponse tag .getk reply.key reply.value reply.flags
  | .success, .getkq => getResponse tag .getkq reply.key reply.value reply.flags
  | .success, opcode => noExtras tag opcode .success []
  | status, opcode => noExtras tag opcode status tag.text

end OptLrc.Packets
