import OptLrc.Relational
import OptLrc.Framed
import OptLrc.Created

namespace OptLrc.Twins

open OptLrc.Galois OptLrc.Memory OptLrc.Jerasure OptLrc.Encoder OptLrc.Stripe OptLrc.Split OptLrc.Process
open OptLrc.Process.Proc OptLrc.Memcached OptLrc.Exchange OptLrc.Rack OptLrc.Storage OptLrc.Retrieval
open OptLrc.Repair OptLrc.Sync OptLrc.Wire OptLrc.Core OptLrc.Fetch OptLrc.Stored OptLrc.Writes OptLrc.Updates
open OptLrc.Contents OptLrc.Arrival

variable {σ Ω α β : Type} {E : Env Request Reply σ} {view : σ → World} {order : σ → Ω} {V : CodingMatrix}
  {place : Nat → Nat} {z z' : Client × σ}

/-- The servers store what they are sent, and the order in which their replies become readable is
given, whatever is sent. -/
structure Clocked (E : Env Request Reply σ) (view : σ → World) (order : σ → Ω) : Prop extends Storing E view where
  sends : ∀ s q x, order (E.serve s q x).2 = order x
  reads : ∀ s t rest x y, order x = order y → (E.pick s t rest x).1 = (E.pick s t rest y).1 ∧
    order (E.pick s t rest x).2 = order (E.pick s t rest y).2

/-- Two clients of one placement that differ in the encoding scheme, the rack ids and the
connections, over storage servers with the same contents. The core is none of the servers in `node2rack`. -/
structure Twin (view : σ → World) (order : σ → Ω) (place : Nat → Nat) (z z' : Client × σ) : Prop where
  same : ∃ scheme racks io, z'.1 = { z.1 with encodingScheme := scheme, nodeRack := racks, io := io }
  apart : ∀ i s, z.1.node2rack.read i = .ok s → s ≠ z.1.networkCoreServerKey
  left : Placed z.1 place
  leftSynced : Io.Synced z.1.serverCount z.1.io
  right : Placed z'.1 place
  rightSynced : Io.Synced z'.1.serverCount z'.1.io
  storage : SameStorage z.1.networkCoreServerKey (view z.2) (view z'.2)
  order : order z.2 = order z'.2

section Steps

theorem Twin.io (h : Twin view order place z z') {io io' : Io} (hs : Io.Synced z.1.serverCount io)
    (hs' : Io.Synced z'.1.serverCount io') :
    Twin view order place ({ z.1 with io := io }, z.2) ({ z'.1 with io := io' }, z'.2) := by
  refine ⟨?_, h.apart, h.left.io io, hs, h.right.io io', hs', h.storage, h.order⟩
  obtain ⟨scheme, racks, io₀, he⟩ := h.same
  exact ⟨scheme, racks, io', by rw [he]⟩

theorem Twin.core (h : Twin view order place z z') : z'.1.networkCoreServerKey = z.1.networkCoreServerKey := by
  obtain ⟨scheme, racks, io, he⟩ := h.same
  rw [he]

theorem Twin.numberOfN (h : Twin view order place z z') : z'.1.numberOfN = z.1.numberOfN := by
  obtain ⟨scheme, racks, io, he⟩ := h.same
  rw [he]

theorem Twin.serverCount (h : Twin view order place z z') : z'.1.serverCount = z.1.serverCount := by
  obtain ⟨scheme, racks, io, he⟩ := h.same
  rw [he]
  rfl

theorem Twin.server_apart (h : Twin view order place z z') {i s : Nat} (hs : z.1.nodeServer i = .ok s) :
    s ≠ z.1.networkCoreServerKey := by
  obtain ⟨t, hread, hinst⟩ := bind_eq_ok.mp hs
  rw [(instance_lt hinst).2]
  exact h.apart i t hread

theorem Twin.symm (h : Twin view order place z z') : Twin view order place z' z := by
  refine ⟨?_, ?_, h.right, h.rightSynced, h.left, h.leftSynced, ?_, h.order.symm⟩
  · obtain ⟨scheme, racks, io, he⟩ := h.same
    exact ⟨z.1.encodingScheme, z.1.nodeRack, z.1.io, by rw [he]⟩
  · obtain ⟨scheme, racks, io, he⟩ := h.same
    rw [he]
    exact h.apart
  · rw [h.core]
    exact h.storage.symm

theorem Twin.failing (h : Twin view order place z z') {p : Nat} (hp : p < z.1.numberOfN) :
    Twin view order place ({ z.1 with failNodeIndex := p }, z.2) ({ z'.1 with failNodeIndex := p }, z'.2) := by
  have hn := h.numberOfN
  refine ⟨?_, h.apart, ⟨h.left.loaded, h.left.valid, h.left.small, h.left.b_pos, h.left.notCore, h.left.node,
    h.left.server, h.left.core, h.left.away, h.left.rack, hp⟩, h.leftSynced, ⟨h.right.loaded, h.right.valid,
    h.right.small, h.right.b_pos, h.right.notCore, h.right.node, h.right.server, h.right.core, h.right.away,
    h.right.rack, hn ▸ hp⟩, h.rightSynced, h.storage, h.order⟩
  obtain ⟨scheme, racks, io, he⟩ := h.same
  exact ⟨scheme, racks, io, by rw [he]⟩

theorem Twin.written (h : Twin view order place z z') {b : Nat} (hb : 0 < b) :
    Twin view order place ({ z.1 with numberOfB := b }, z.2) ({ z'.1 with numberOfB := b }, z'.2) := by
  refine ⟨?_, h.apart, ⟨h.left.loaded, h.left.valid, h.left.small, hb, h.left.notCore, h.left.node, h.left.server,
    h.left.core, h.left.away, h.left.rack, h.left.fail⟩, h.leftSynced, ⟨h.right.loaded, h.right.valid,
    h.right.small, hb, h.right.notCore, h.right.node, h.right.server, h.right.core, h.right.away, h.right.rack,
    h.right.fail⟩, h.rightSynced, h.storage, h.order⟩
  obtain ⟨scheme, racks, io, he⟩ := h.same
  exact ⟨scheme, racks, io, by rw [he]⟩

theorem order_coreOnly (hE : Clocked E view order) {core : Nat} {x y : σ} (h : CoreOnly E core x y) :
    order y = order x := by
  induction h with
  | refl x => rfl
  | step key value x y h ih => rw [ih, coreState, hE.sends, hE.sends]

/-- What goes through the core on one side changes nothing. -/
theorem Twin.coreLeft (h : Twin view order place z z') (hE : Clocked E view order) {io : Io}
    (hs : Io.Synced z.1.serverCount io) {y : σ} (hy : CoreOnly E z.1.networkCoreServerKey z.2 y) :
    Twin view order place ({ z.1 with io := io }, y) z' := by
  refine ⟨?_, h.apart, h.left.io io, hs, h.right, h.rightSynced, ?_, ?_⟩
  · obtain ⟨scheme, racks, io₀, he⟩ := h.same
    exact ⟨scheme, racks, io₀, by rw [he]⟩
  · exact (view_coreOnly hE.toStoring hy).trans h.storage
  · rw [order_coreOnly hE hy]
    exact h.order

theorem Twin.coreBoth (h : Twin view order place z z') (hE : Clocked E view order) {io io' : Io} {y y' : σ}
    (hs : Io.Synced z.1.serverCount io) (hs' : Io.Synced z'.1.serverCount io')
    (hy : CoreOnly E z.1.networkCoreServerKey z.2 y) (hy' : CoreOnly E z'.1.networkCoreServerKey z'.2 y') :
    Twin view order place ({ z.1 with io := io }, y) ({ z'.1 with io := io' }, y') :=
  ((h.coreLeft hE hs hy).symm.coreLeft hE hs' hy').symm

theorem sameStorage_serve {core s : Nat} {w w' : World} (h : SameStorage core w w') (hs : s ≠ core) (q : Request) :
    SameStorage core (serve s q w).2 (serve s q w').2 := by
  have hat : w s = w' s := h s hs
  cases q with
  | set key value flags expiration => exact h.put s key _
  | getk key =>
    simp only [serve, hat]
    cases w' s key with
    | none => exact h
    | some item => exact h
  | getkq key =>
    simp only [serve, hat]
    cases w' s key with
    | none => exact h
    | some item => exact h
  | noop => exact h
  | delete key =>
    simp only [serve, hat]
    cases w' s key with
    | none => exact h
    | some item => exact h.put s key none

/-- Both clients send a request to a storage server. -/
theorem Twin.serve (h : Twin view order place z z') (hE : Clocked E view order) {io io' : Io} {s : Nat} {q : Request}
    (hs : Io.Synced z.1.serverCount io) (hs' : Io.Synced z'.1.serverCount io') (hcore : s ≠ z.1.networkCoreServerKey) :
    Twin view order place ({ z.1 with io := io }, (E.serve s q z.2).2)
      ({ z'.1 with io := io' }, (E.serve s q z'.2).2) := by
  have hio := h.io hs hs'
  refine ⟨hio.same, hio.apart, hio.left, hio.leftSynced, hio.right, hio.rightSynced, ?_, ?_⟩
  · change SameStorage z.1.networkCoreServerKey (view (E.serve s q z.2).2) (view (E.serve s q z'.2).2)
    rw [hE.stores, hE.stores]
    exact sameStorage_serve h.storage hcore q
  · change order (E.serve s q z.2).2 = order (E.serve s q z'.2).2
    rw [hE.sends, hE.sends]
    exact h.order

end Steps

section Sets

variable {c : Client} {x : σ}

/-- The block writes of a store, on connections that may still owe replies. -/
theorem exec_sends (hE : Replying E) (hp : Placed c place) (hs : Io.Synced c.serverCount c.io) {all : Cells Block}
    {last : Block} (key : Key) {block : Nat → Block} {lastIndex : Nat} (expiration flags : Nat)
    (hall : ∀ i < c.numberOfN, (if i ≠ lastIndex then all.read i else .ok last) = .ok (block i))
    (m : Nat) (hm : m ≤ c.numberOfN) :
    ∃ io, (Proc.each (sendBlock key all lastIndex last expiration flags) (List.range m)).exec E c x =
        (.ok ((), { c with io := io }),
          scatterState E place (fun i => .set (blockKey key i) (block i) flags expiration) x m) ∧
      Io.Synced c.serverCount io ∧ ∀ i < m, (io.conn (place i)).responseCount ≠ 0 := by
  induction m with
  | zero => exact ⟨c.io, rfl, hs, by simp⟩
  | succ m ih =>
    obtain ⟨io, he, hs', howes⟩ := ih (by omega)
    generalize hy : scatterState E place (fun i => .set (blockKey key i) (block i) flags expiration) x m = y at he
    have hnode : ({ c with io := io } : Client).nodeServer m = .ok (place m) := hp.nodeServer (by omega)
    obtain ⟨reply, hreply, hop⟩ := hE.one (place m) (.set (blockKey key m) (block m) flags expiration) y
      (by simp [Request.opcode])
    have hconn : Conn.Synced ⟨[], (io.conn (place m)).inbox ++ [reply], (io.conn (place m)).responseCount + 1⟩ :=
      ⟨rfl, settles_append (hs'.conn _).settles (not_quietHit hop (by simp [Request.opcode]))⟩
    refine ⟨io.set (place m) ⟨[], (io.conn (place m)).inbox ++ [reply], (io.conn (place m)).responseCount + 1⟩, ?_,
      synced_set hs' hconn (hp.server m (by omega)) io.result, fun i hi => ?_⟩
    · rw [List.range_succ, Proc.exec_each_append E c x _ he, Proc.exec_each_cons, sendBlock]
      simp only [Proc.exec_bind, Proc.exec_get, hnode, Proc.exec_lift_ok, hall m (by omega)]
      rw [exec_memcachedVdo E { c with io := io } y _ _ (hs'.conn _).sent]
      simp only [Proc.exec_each_nil, hreply, scatterState, hy]
      rfl
    · by_cases h : place i = place m
      · simp [Io.set, h]
      · have him : i < m := by
          rcases Nat.lt_succ_iff_lt_or_eq.mp hi with h' | rfl
          · exact h'
          · exact absurd rfl h
        simpa [Io.set, h] using howes i him

/-- Both clients write the same blocks to the same servers. -/
theorem Twin.scatter (h : Twin view order place z z') (hE : Clocked E view order) {io io' : Io} (q : Nat → Request)
    (hs : Io.Synced z.1.serverCount io) (hs' : Io.Synced z'.1.serverCount io') {m : Nat} (hm : m ≤ z.1.numberOfN) :
    Twin view order place ({ z.1 with io := io }, scatterState E place q z.2 m)
      ({ z'.1 with io := io' }, scatterState E place q z'.2 m) := by
  induction m with
  | zero => exact h.io hs hs'
  | succ m ih =>
    exact (ih (by omega)).serve hE (q := q m) hs hs' (h.left.away m (by omega))

/-- The bytes of the last data block, cut from its buffer. -/
def cutLast (k : Nat) (value : Block) : Except Fault Block := do
  alloc (sizeSub value.length (determineBlockSizeRs value.length k * (k - 1)))
  readRange (dataBlock (determineBlockSizeRs value.length k) value (k - 1)) 0
    (sizeSub value.length (determineBlockSizeRs value.length k * (k - 1)))

/-- What is left of a store when the stripe has been computed, whether or not the last block can
be cut. -/
def send (V : CodingMatrix) (c : Client) (s : Nat) (key : Key) (value : Block) (expiration flags : Nat)
    (l : List Nat) : Prog ReturnCode := do
  let last ← Proc.lift (cutLast c.numberOfK value)
  Proc.each (fun i => do
    let block ← Proc.lift ((stripeCells V c value).read i)
    crossNetworkcore (blockKey key i) block) l
  Proc.each (sendBlock key (stripeCells V c value) (lastDataIndex c.numberOfK c.numberOfR) last expiration flags)
    (List.range c.numberOfN)
  memcachedResponse s

theorem exec_lrcSendBinary_send (hV : FirstRowOnes V) (hp : Placed c place) (s : Nat) (key : Key) (value : Block)
    (expiration flags : Nat) {l : List Nat}
    (hl : transferList c.numberOfN c.numberOfR c.encodingScheme c.nodeRack = .ok l) :
    (lrcSendBinary V s key value expiration flags).exec E c x =
      (send V c s key value expiration flags l).exec E c x := by
  have hk := hp.valid.k_pos
  have hfill := fillDataPtrs_eq c.numberOfK (determineBlockSizeRs value.length c.numberOfK) value
  have hall := allBlocks_stored hV hp.valid hp.small value
  have hload : loadRacks c = .ok c := by simp [loadRacks, hp.loaded]
  have hread : Cells.read ((List.range c.numberOfK).map (fun i =>
      some (dataBlock (determineBlockSizeRs value.length c.numberOfK) value i))) (c.numberOfK - 1) =
      .ok (dataBlock (determineBlockSizeRs value.length c.numberOfK) value (c.numberOfK - 1)) :=
    read_range (by omega)
  simp only [lrcSendBinary, send, cutLast, Proc.exec_bind, Proc.exec_get, hfill, Proc.exec_lift_ok, hall, hload,
    Proc.exec_modify, hread, hl]
  cases alloc (sizeSub value.length (determineBlockSizeRs value.length c.numberOfK * (c.numberOfK - 1))) with
  | error e => rfl
  | ok u =>
    cases readRange (dataBlock (determineBlockSizeRs value.length c.numberOfK) value (c.numberOfK - 1)) 0
        (sizeSub value.length (determineBlockSizeRs value.length c.numberOfK * (c.numberOfK - 1))) with
    | error e => rfl
    | ok last => rfl

/-- Both clients read the reply of a server that owes one. -/
theorem both_response (h : Twin view order place z z') {s : Nat} (hlt : s < z.1.serverCount)
    (hlt' : s < z'.1.serverCount) (howes : (z.1.io.conn s).responseCount ≠ 0)
    (howes' : (z'.1.io.conn s).responseCount ≠ 0) :
    Both E (memcachedResponse s) (memcachedResponse s) z z' (fun _ t _ t' => Twin view order place t t') := by
  obtain ⟨rc, conn, result, hread, hsync, -⟩ := readOneResponse_synced (h.leftSynced.conn s) howes z.1.io.result
  obtain ⟨rc', conn', result', hread', hsync', -⟩ := readOneResponse_synced (h.rightSynced.conn s) howes'
    z'.1.io.result
  refine both_ok (exec_memcachedResponse E z.1 z.2 hread) (exec_memcachedResponse E z'.1 z'.2 hread') ?_
  exact h.io (synced_set h.leftSynced hsync hlt result) (synced_set h.rightSynced hsync' hlt' result')

theorem both_transfers (hE : Clocked E view order) (h : Twin view order place z z') (key : Key) (value : Block)
    {l l' : List Nat} (hl : ∀ i ∈ l, i < z.1.numberOfN) (hl' : ∀ i ∈ l', i < z.1.numberOfN) :
    Both E (Proc.each (fun i => do
        let block ← Proc.lift ((stripeCells V z.1 value).read i)
        crossNetworkcore (blockKey key i) block) l)
      (Proc.each (fun i => do
        let block ← Proc.lift ((stripeCells V z.1 value).read i)
        crossNetworkcore (blockKey key i) block) l') z z' (fun _ t _ t' =>
          Twin view order place t t' ∧ (∃ io, t.1 = { z.1 with io := io }) ∧ ∃ io, t'.1 = { z'.1 with io := io }) := by
  have hact : ∀ l : List Nat, (∀ i ∈ l, i < z.1.numberOfN) → ∀ i ∈ l, ∃ key' block, ∀ (c : Client) (x : σ),
      (do
        let block ← Proc.lift ((stripeCells V z.1 value).read i)
        crossNetworkcore (blockKey key i) block : Prog Unit).exec E c x = (crossNetworkcore key' block).exec E c x := by
    intro l hl i hi
    refine ⟨blockKey key i, fullBlock V z.1.numberOfN z.1.numberOfK z.1.numberOfR value i, fun c x => ?_⟩
    rw [stripeCells, read_range (hl i hi), Proc.exec_bind, Proc.exec_lift_ok]
  obtain ⟨io, y, he, hs, hy⟩ := exec_each_cross (x := z.2) (Storing.replying hE.toStoring) h.left h.leftSynced l
    (fun i hi => Or.inr (hact l hl i hi))
  obtain ⟨io', y', he', hs', hy'⟩ := exec_each_cross (x := z'.2) (Storing.replying hE.toStoring) h.right h.rightSynced
    l' (fun i hi => Or.inr (hact l' hl' i hi))
  exact both_ok he he' ⟨h.coreBoth hE hs hs' hy hy', ⟨io, rfl⟩, ⟨io', rfl⟩⟩

/-- Both clients write the same blocks and read one of the replies. -/
theorem both_writes (hE : Clocked E view order) (h : Twin view order place z z') {all : Cells Block} {last : Block}
    (key : Key) (block : Nat → Block) {lastIndex : Nat} (expiration flags : Nat)
    (hall : ∀ i < z.1.numberOfN, (if i ≠ lastIndex then all.read i else .ok last) = .ok (block i)) :
    Both E (do
        Proc.each (sendBlock key all lastIndex last expiration flags) (List.range z.1.numberOfN)
        memcachedResponse (place z.1.failNodeIndex))
      (do
        Proc.each (sendBlock key all lastIndex last expiration flags) (List.range z.1.numberOfN)
        memcachedResponse (place z.1.failNodeIndex)) z z' (fun _ t _ t' => Twin view order place t t') := by
  have hn := h.numberOfN
  have hcount := h.serverCount
  have hfail := h.left.fail
  obtain ⟨io, he, hs, howes⟩ := exec_sends (x := z.2) (Storing.replying hE.toStoring) h.left h.leftSynced key
    expiration flags hall z.1.numberOfN le_rfl
  obtain ⟨io', he', hs', howes'⟩ := exec_sends (x := z'.2) (Storing.replying hE.toStoring) h.right h.rightSynced key
    expiration flags (fun i hi => hall i (by rw [← hn]; exact hi)) z.1.numberOfN (le_of_eq hn.symm)
  have hnext := h.scatter hE (fun i => .set (blockKey key i) (block i) flags expiration) hs hs' le_rfl
  refine (both_ok (Q := fun _ t _ t' => (_, _) = t ∧ (_, _) = t') he he' ⟨rfl, rfl⟩).bind ?_
  rintro - t - t' ⟨rfl, rfl⟩
  exact both_response hnext (h.left.server _ hfail) (hcount ▸ h.left.server _ hfail) (howes _ hfail) (howes' _ hfail)

theorem both_lrcSendBinary (hE : Clocked E view order) (hV : FirstRowOnes V) (h : Twin view order place z z')
    (key : Key) (value : Block) (expiration flags : Nat) :
    Both E (lrcSendBinary V (place z.1.failNodeIndex) key value expiration flags)
      (lrcSendBinary V (place z.1.failNodeIndex) key value expiration flags) z z'
      (fun _ t _ t' => Twin view order place t t') := by
  obtain ⟨l, hl, -, hlt⟩ := transferList_ok h.left.valid z.1.encodingScheme h.left.rack
  obtain ⟨l', hl', -, hlt'⟩ := transferList_ok h.right.valid z'.1.encodingScheme h.right.rack
  rw [h.numberOfN] at hlt'
  have hsend : send V z'.1 (place z.1.failNodeIndex) key value expiration flags l' =
      send V z.1 (place z.1.failNodeIndex) key value expiration flags l' := by
    obtain ⟨scheme, racks, io, he⟩ := h.same
    rw [he]
    rfl
  refine Both.congr ?_ (exec_lrcSendBinary_send hV h.left _ key value expiration flags hl)
    ((exec_lrcSendBinary_send hV h.right _ key value expiration flags hl').trans (by rw [hsend]))
  refine (both_lift (Q := fun a t a' t' => a = a' ∧ z = t ∧ z' = t') (fun a _ => ⟨rfl, rfl, rfl⟩)).bind ?_
  rintro last t - t' ⟨rfl, rfl, rfl⟩
  refine (both_transfers hE h key value hlt hlt').bind ?_
  rintro - ⟨c, y⟩ - ⟨c', y'⟩ ⟨h, ⟨io, rfl⟩, ⟨io', rfl⟩⟩
  refine both_writes hE h key (fun i => if i ≠ lastDataIndex z.1.numberOfK z.1.numberOfR then
    fullBlock V z.1.numberOfN z.1.numberOfK z.1.numberOfR value i else last) expiration flags (fun i hi => ?_)
  rw [stripeCells, read_range hi]
  split <;> rfl

end Sets

end OptLrc.Twins
