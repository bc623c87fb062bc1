import OptLrc.Fetch
import OptLrc.Stored

namespace OptLrc.Writes

open OptLrc.Galois OptLrc.Memory OptLrc.Jerasure OptLrc.Encoder OptLrc.Stripe OptLrc.Split
open OptLrc.Process OptLrc.Memcached OptLrc.Exchange OptLrc.Rack OptLrc.Storage OptLrc.Sync
open OptLrc.Wire OptLrc.Core OptLrc.Fetch OptLrc.Stored

variable {σ : Type} (E : Env Request Reply σ)

/-- The environment after blocks have gone through the core. -/
def transferState (core : Nat) (key : Key) (block : Nat → Block) : List Nat → σ → σ
  | [], x => x
  | i :: l, x => transferState core key block l (coreState E core (blockKey key i) (block i) x)

/-- The environment after request `q i` went to server `place i`, for each `i` below a bound. -/
def scatterState (place : Nat → Nat) (q : Nat → Request) (x : σ) : Nat → σ
  | 0 => x
  | i + 1 => (E.serve (place i) (q i) (scatterState place q x i)).2

def scatterReplies (place : Nat → Nat) (q : Nat → Request) (x : σ) (i : Nat) : List Reply :=
  (E.serve (place i) (q i) (scatterState E place q x i)).1

def scatterConn (place : Nat → Nat) (q : Nat → Request) (x : σ) (m t : Nat) : Conn :=
  ⟨[], ((List.range m).filter (fun i => place i = t)).flatMap (scatterReplies E place q x),
    ((List.range m).filter (fun i => place i = t)).length⟩

section Exec

variable {E} {c : Client} {x : σ} {place : Nat → Nat}

theorem synced_allIdle (hosts : Nat) (result : Result) :
    Io.Synced hosts ⟨fun _ => .idle, result⟩ := ⟨fun _ => synced_idle, fun _ _ => rfl⟩

theorem exec_core (hE : Replying E) (hp : Placed c place) (hs : Io.Synced c.serverCount c.io) {key : Key}
    (hkey : memcachedKeyTest key = true) (value : Block) :
    ∃ result, (crossNetworkcore key value).exec E c x =
      (.ok ((), { c with io := ⟨fun _ => .idle, result⟩ }),
        coreState E c.networkCoreServerKey key value x) := by
  obtain ⟨result, he⟩ := exec_crossNetworkcore hE (x := x) key value hs (hp.nodeServer hp.fail) hp.core hkey
  refine ⟨result, ?_⟩
  rw [he, ← hp.notCore]

/-- A transfer of a key that the key test refuses is none. -/
theorem exec_cross (hE : Replying E) (hp : Placed c place) (hs : Io.Synced c.serverCount c.io) (key : Key)
    (value : Block) :
    ∃ io y, (crossNetworkcore key value).exec E c x = (.ok ((), { c with io := io }), y) ∧
      Io.Synced c.serverCount io ∧ CoreOnly E c.networkCoreServerKey x y := by
  by_cases hkey : memcachedKeyTest key = true
  · obtain ⟨result, he⟩ := exec_core hE (x := x) hp hs hkey value
    exact ⟨_, _, he, synced_allIdle _ result, .step key value x _ (.refl _)⟩
  · have hcount : c.serverCount ≠ 0 := by
      have := hp.core
      omega
    have hcount' : ({ c with isCore := true } : Client).serverCount ≠ 0 := hcount
    have hcount'' : (Client.resetResult { c with isCore := true }).serverCount ≠ 0 := hcount
    refine ⟨{ c.io with result := .reset }, x, ?_, ⟨hs.conn, hs.idle⟩, .refl x⟩
    simp only [crossNetworkcore, setIsCore, Proc.exec_bind, Proc.exec_modify, memcachedSendWith,
      exec_initializeQuery E _ x hcount', ne_eq, not_true_eq_false, if_false, hkey, not_false_eq_true, if_true,
      Proc.exec_pure, memcachedGetByKey, mgetByKeyReal, exec_initializeQuery E _ x hcount'',
      List.cons_ne_nil, List.all_cons, Bool.false_and, Bool.false_eq_true, reduceCtorEq]
    rw [← hp.notCore]
    rfl

/-- A loop whose turns transfer a block through the core, or do nothing. -/
theorem exec_each_cross (hE : Replying E) (hp : Placed c place) (hs : Io.Synced c.serverCount c.io)
    {α : Type} {act : α → Prog Unit} (l : List α)
    (hact : ∀ a ∈ l, (act a = pure ()) ∨ ∃ key value,
      ∀ (c : Client) (x : σ), (act a).exec E c x = (crossNetworkcore key value).exec E c x) :
    ∃ io y, (Proc.each act l).exec E c x = (.ok ((), { c with io := io }), y) ∧
      Io.Synced c.serverCount io ∧ CoreOnly E c.networkCoreServerKey x y := by
  induction l generalizing c x with
  | nil => exact ⟨c.io, x, rfl, hs, .refl x⟩
  | cons a l ih =>
    rcases hact a (by simp) with ha | ⟨key, value, ha⟩
    · obtain ⟨io, y, he, hs', hy⟩ := ih (x := x) hp hs (fun b hb => hact b (by simp [hb]))
      refine ⟨io, y, ?_, hs', hy⟩
      rw [Proc.exec_each_cons, ha]
      exact he
    · obtain ⟨io1, y1, hcross, hs1, hy1⟩ := exec_cross hE (x := x) hp hs key value
      obtain ⟨io, y, he, hs', hy⟩ := ih (c := { c with io := io1 }) (x := y1) (hp.io _) hs1
        (fun b hb => hact b (by simp [hb]))
      refine ⟨io, y, ?_, hs', hy1.trans hy⟩
      rw [Proc.exec_each_cons, Proc.exec_bind_ok E c x ((ha c x).trans hcross)]
      exact he

theorem exec_transfers (hE : Replying E) (hp : Placed c place) (hs : Io.Synced c.serverCount c.io)
    (all : Cells Block) (key : Key) (block : Nat → Block) (l : List Nat)
    (hall : ∀ i ∈ l, all.read i = .ok (block i))
    (hkey : ∀ i ∈ l, memcachedKeyTest (blockKey key i) = true) :
    ∃ io, (Proc.each (fun i => do
        let block ← Proc.lift (all.read i)
        crossNetworkcore (blockKey key i) block) l).exec E c x =
      (.ok ((), { c with io := io }), transferState E c.networkCoreServerKey key block l x) ∧
      Io.Synced c.serverCount io ∧ (l = [] ∧ io = c.io ∨ io.conn = fun _ => .idle) := by
  induction l generalizing c x with
  | nil => exact ⟨c.io, rfl, hs, Or.inl ⟨rfl, rfl⟩⟩
  | cons i l ih =>
    obtain ⟨result, he⟩ := exec_core hE (x := x) hp hs (hkey i (by simp)) (block i)
    obtain ⟨io, he', hs', hidle⟩ := ih (c := { c with io := ⟨fun _ => .idle, result⟩ })
      (x := coreState E c.networkCoreServerKey (blockKey key i) (block i) x) (hp.io _)
      (synced_allIdle _ result)
      (fun j hj => hall j (by simp [hj])) (fun j hj => hkey j (by simp [hj]))
    refine ⟨io, ?_, hs', Or.inr ?_⟩
    · rw [Proc.exec_each_cons]
      simp only [Proc.exec_bind, hall i (by simp), Proc.exec_lift_ok, he]
      exact he'
    · rcases hidle with ⟨-, rfl⟩ | h
      · rfl
      · exact h

/-- The block writes, one after another, on idle connections. -/
theorem exec_each_sendBlock (hp : Placed c place) (hidle : c.io.conn = fun _ => .idle)
    {all : Cells Block} {last : Block} (key : Key) {block : Nat → Block} {lastIndex : Nat}
    (expiration flags : Nat)
    (hall : ∀ i < c.numberOfN, (if i ≠ lastIndex then all.read i else .ok last) = .ok (block i))
    (m : Nat) (hm : m ≤ c.numberOfN) :
    (Proc.each (sendBlock key all lastIndex last expiration flags) (List.range m)).exec E c x =
      (.ok ((), c.setConns (scatterConn E place
        (fun i => .set (blockKey key i) (block i) flags expiration) x m)),
        scatterState E place (fun i => .set (blockKey key i) (block i) flags expiration) x m) := by
  induction m with
  | zero =>
    rw [List.range_zero, Proc.exec_each_nil]
    refine Prod.ext (congrArg Except.ok (Prod.ext rfl ?_)) rfl
    rw [show scatterConn E place (fun i => .set (blockKey key i) (block i) flags expiration) x 0 =
      c.io.conn by rw [hidle]; rfl]
    rfl
  | succ m ih =>
    rw [List.range_succ, Proc.exec_each_append E c x _ (ih (by omega)), Proc.exec_each_cons, sendBlock]
    have hnode : (c.setConns (scatterConn E place
        (fun i => .set (blockKey key i) (block i) flags expiration) x m)).nodeServer m =
        .ok (place m) := hp.nodeServer (by omega)
    simp only [Proc.exec_bind, Proc.exec_get, hnode, Proc.exec_lift_ok, hall m (by omega)]
    rw [exec_memcachedVdo E _ _ _ _ rfl]
    simp only [Proc.exec_each_nil, setConns_conn]
    refine Prod.ext (congrArg Except.ok (Prod.ext rfl ?_)) rfl
    simp only [Client.setConn, Client.setConns, Io.set]
    congr 2
    funext t
    by_cases ht : t = place m
    · subst ht
      simp [scatterConn, List.range_succ, List.filter_append, scatterReplies]
    · simp [scatterConn, List.range_succ, List.filter_append, ht, Ne.symm ht]

/-- The request that stores block `i` of a value. -/
def storeRequest (V : CodingMatrix) (c : Client) (key : Key) (value : Block) (expiration flags i : Nat) :
    Request :=
  .set (blockKey key i) (storedBlock V c.numberOfN c.numberOfK c.numberOfR value i) flags expiration

theorem settles_counted (replies : List Reply) (h : ∀ reply ∈ replies, ¬ Reply.quietHit reply) :
    Settles replies replies.length := by
  induction replies with
  | nil => rfl
  | cons a replies ih =>
    refine Or.inr ?_
    rw [if_neg (h a (by simp))]
    exact ih (fun reply hr => h reply (by simp [hr]))

theorem length_flatMap_singleton {f : Nat → List Reply} (l : List Nat)
    (h : ∀ i ∈ l, ∃ reply, f i = [reply]) : (l.flatMap f).length = l.length := by
  induction l with
  | nil => rfl
  | cons i l ih =>
    obtain ⟨reply, hr⟩ := h i (by simp)
    simp [hr, ih (fun j hj => h j (by simp [hj]))]

theorem scatter_synced (hE : Replying E) {q : Nat → Request} (hq : ∀ i, Request.opcode (q i) ≠ .getkq)
    (m t : Nat) : Conn.Synced (scatterConn E place q x m t) := by
  refine ⟨rfl, ?_⟩
  have hone : ∀ i, ∃ reply, scatterReplies E place q x i = [reply] ∧ ¬ Reply.quietHit reply := by
    intro i
    obtain ⟨reply, hr, hop⟩ := hE.one (place i) (q i) (scatterState E place q x i) (hq i)
    exact ⟨reply, hr, not_quietHit hop (hq i)⟩
  have hlen := length_flatMap_singleton ((List.range m).filter (fun i => place i = t))
    (f := scatterReplies E place q x) (fun i _ => ⟨_, (hone i).choose_spec.1⟩)
  simp only [scatterConn]
  rw [← hlen]
  refine settles_counted _ (fun reply hr => ?_)
  obtain ⟨i, -, hi⟩ := List.mem_flatMap.mp hr
  obtain ⟨reply', hr', hnq⟩ := hone i
  rw [hr', List.mem_singleton] at hi
  rwa [hi]

theorem keyTest_blockKey_iff {key : Key} (i : Nat) :
    memcachedKeyTest (blockKey key i) = true ↔ key.length ≤ 248 := by
  simp only [memcachedKeyTest, blockKey, List.length_append, List.length_cons, List.length_nil,
    Bool.and_eq_true, decide_eq_true_eq]
  omega

theorem keyTest_blockKey {key : Key} (hkey : key.length ≤ 248) (i : Nat) :
    memcachedKeyTest (blockKey key i) = true :=
  (keyTest_blockKey_iff i).mpr hkey

theorem read_range {f : Nat → Block} {n i : Nat} (hi : i < n) :
    Cells.read ((List.range n).map (fun j => some (f j))) i = .ok (f i) :=
  Cells.read_eq (by simp [hi])

theorem readRange_take (block : Block) (size : Nat) (h : size ≤ block.length) :
    readRange block 0 size = .ok (block.take size) := by
  simp [readRange, h]

theorem sizeSub_lastSize {k : Nat} {value : Block} (h : Splits k value) :
    sizeSub value.length (determineBlockSizeRs value.length k * (k - 1)) =
      value.length - determineBlockSizeRs value.length k * (k - 1) :=
  sizeSub_eq (by have := h.fits; omega) h.reaches

/-- The stripe of a value, as the encoder holds it. -/
def stripeCells (V : CodingMatrix) (c : Client) (value : Block) : Cells Block :=
  (List.range c.numberOfN).map (fun i =>
    some (fullBlock V c.numberOfN c.numberOfK c.numberOfR value i))

def lastBlock (k : Nat) (value : Block) : Block :=
  (dataBlock (determineBlockSizeRs value.length k) value (k - 1)).take
    (value.length - determineBlockSizeRs value.length k * (k - 1))

theorem stripeCells_read {V : CodingMatrix} (hp : Placed c place) (value : Block) {i : Nat}
    (hi : i < c.numberOfN) :
    (if i ≠ lastDataIndex c.numberOfK c.numberOfR then (stripeCells V c value).read i
      else .ok (lastBlock c.numberOfK value)) =
      .ok (storedBlock V c.numberOfN c.numberOfK c.numberOfR value i) := by
  by_cases h : i = lastDataIndex c.numberOfK c.numberOfR
  · have hk := hp.valid.k_pos
    simp only [h, ne_eq, not_true_eq_false, if_false, storedBlock, if_true]
    rw [lastDataIndex_eq hk, fullBlock_data hp.valid value (by omega), lastBlock]
  · simp only [h, ne_eq, not_false_eq_true, if_true, storedBlock, if_false]
    exact read_range hi

/-- What is left of a store when the stripe has been computed. -/
def distribute (V : CodingMatrix) (c : Client) (s : Nat) (key : Key) (value : Block)
    (expiration flags : Nat) (l : List Nat) : Prog ReturnCode := do
  Proc.each (fun i => do
    let block ← Proc.lift ((stripeCells V c value).read i)
    crossNetworkcore (blockKey key i) block) l
  Proc.each (sendBlock key (stripeCells V c value) (lastDataIndex c.numberOfK c.numberOfR)
    (lastBlock c.numberOfK value) expiration flags) (List.range c.numberOfN)
  memcachedResponse s

theorem exec_lrcSendBinary_distribute {V : CodingMatrix} (hV : FirstRowOnes V) (hp : Placed c place)
    (s : Nat) (key : Key) {value : Block} (hval : Splits c.numberOfK value) (expiration flags : Nat)
    {l : List Nat}
    (hl : transferList c.numberOfN c.numberOfR c.encodingScheme c.nodeRack = .ok l) :
    (lrcSendBinary V s key value expiration flags).exec E c x =
      (distribute V c s key value expiration flags l).exec E c x := by
  have hk := hp.valid.k_pos
  have hfill := fillDataPtrs_eq c.numberOfK (determineBlockSizeRs value.length c.numberOfK) value
  have hall := allBlocks_stored hV hp.valid hp.small value
  have hload : loadRacks c = .ok c := by simp [loadRacks, hp.loaded]
  have hlast := lastSize_le hk value
  have halloc : alloc (value.length - determineBlockSizeRs value.length c.numberOfK *
      (c.numberOfK - 1)) = .ok () := by
    have := hval.fits
    rw [alloc, if_pos (by omega)]
  have hread : Cells.read ((List.range c.numberOfK).map (fun i =>
      some (dataBlock (determineBlockSizeRs value.length c.numberOfK) value i))) (c.numberOfK - 1) =
      .ok (dataBlock (determineBlockSizeRs value.length c.numberOfK) value (c.numberOfK - 1)) :=
    read_range (by omega)
  have htake := readRange_take (dataBlock (determineBlockSizeRs value.length c.numberOfK) value
    (c.numberOfK - 1)) (value.length - determineBlockSizeRs value.length c.numberOfK *
      (c.numberOfK - 1)) (by rwa [length_dataBlock])
  simp only [lrcSendBinary, Proc.exec_bind, Proc.exec_get, hfill, Proc.exec_lift_ok, hall, hload,
    Proc.exec_modify, sizeSub_lastSize hval, halloc, hread, htake, hl]
  simp only [distribute, Proc.exec_bind]
  rfl

theorem scatter_idle (hp : Placed c place) (q : Nat → Request) {t : Nat} (ht : c.serverCount ≤ t) :
    scatterConn E place q x c.numberOfN t = .idle := by
  have hnil : (List.range c.numberOfN).filter (fun i => place i = t) = [] := by
    rw [List.filter_eq_nil_iff]
    intro i hi he
    have := hp.server i (List.mem_range.mp hi)
    simp only [decide_eq_true_eq] at he
    omega
  simp [scatterConn, hnil, Conn.idle]

theorem scatter_owes (hp : Placed c place) (q : Nat → Request) :
    (scatterConn E place q x c.numberOfN (place c.failNodeIndex)).responseCount ≠ 0 := by
  have hmem : c.failNodeIndex ∈ (List.range c.numberOfN).filter
      (fun i => place i = place c.failNodeIndex) := by
    simp [hp.fail]
  intro h0
  rw [List.eq_nil_of_length_eq_zero h0] at hmem
  cases hmem

/-- The status that a store returns, when its writes found the environment in state `y`. -/
def StoreStatus (E : Env Request Reply σ) (V : CodingMatrix) (c : Client) (place : Nat → Nat) (key : Key)
    (value : Block) (expiration flags : Nat) (y : σ) (rc : ReturnCode) : Prop :=
  ∃ result conn result', readOneResponse (scatterConn E place
    (storeRequest V c key value expiration flags) y c.numberOfN (place c.failNodeIndex)) result =
      .ok (rc, conn, result')

/-- The writes of a store, and the reply that it reads. -/
theorem exec_writes {V : CodingMatrix} (hE : Replying E) (hp : Placed c place)
    (hidle : c.io.conn = fun _ => .idle) (key : Key) (value : Block) (expiration flags : Nat) :
    ∃ rc io, (do
        Proc.each (sendBlock key (stripeCells V c value) (lastDataIndex c.numberOfK c.numberOfR)
          (lastBlock c.numberOfK value) expiration flags) (List.range c.numberOfN)
        memcachedResponse (place c.failNodeIndex) : Prog ReturnCode).exec E c x =
        (.ok (rc, { c with io := io }),
          scatterState E place (storeRequest V c key value expiration flags) x c.numberOfN) ∧
      Io.Synced c.serverCount io ∧ StoreStatus E V c place key value expiration flags x rc := by
  have hsend := exec_each_sendBlock (E := E) (x := x) hp hidle key
    expiration flags (fun i hi => stripeCells_read (V := V) hp value hi) c.numberOfN le_rfl
  have hsc : Io.Synced c.serverCount ⟨scatterConn E place
      (storeRequest V c key value expiration flags) x c.numberOfN, c.io.result⟩ :=
    ⟨scatter_synced hE (fun i => by simp [storeRequest, Request.opcode]) c.numberOfN,
      fun t ht => scatter_idle hp _ ht⟩
  obtain ⟨rc, conn, result, hread, hsync, -⟩ := readOneResponse_synced (hsc.conn _)
    (scatter_owes hp (storeRequest V c key value expiration flags)) c.io.result
  have hresp := exec_memcachedResponse E (c.setConns (scatterConn E place
    (storeRequest V c key value expiration flags) x c.numberOfN))
    (scatterState E place (storeRequest V c key value expiration flags) x c.numberOfN) hread
  refine ⟨rc, _, ?_, synced_set hsc hsync (hp.server _ hp.fail) result, _, _, _, hread⟩
  rw [Proc.exec_bind_ok E c x hsend]
  exact hresp

/-- Storing an object: transfers through the core, then one write for each block. -/
theorem exec_lrcSendBinary {V : CodingMatrix} (hE : Replying E) (hV : FirstRowOnes V)
    (hp : Placed c place) (hs : Io.Synced c.serverCount c.io) {key : Key} (hkey : key.length ≤ 248)
    {value : Block} (hval : Splits c.numberOfK value) (expiration flags : Nat) :
    ∃ l y rc io, (∀ i ∈ l, i < c.numberOfN) ∧
      y = transferState E c.networkCoreServerKey key
        (fullBlock V c.numberOfN c.numberOfK c.numberOfR value) l x ∧
      (lrcSendBinary V (place c.failNodeIndex) key value expiration flags).exec E c x =
        (.ok (rc, { c with io := io }),
          scatterState E place (storeRequest V c key value expiration flags) y c.numberOfN) ∧
      Io.Synced c.serverCount io ∧ StoreStatus E V c place key value expiration flags y rc := by
  obtain ⟨l, hl, hne, hlt⟩ := transferList_ok hp.valid c.encodingScheme hp.rack
  obtain ⟨io, htrans, -, hidle⟩ := exec_transfers (x := x) hE hp hs
    (stripeCells V c value) key (fullBlock V c.numberOfN c.numberOfK c.numberOfR value) l
    (fun i hi => read_range (hlt i hi)) (fun i _ => keyTest_blockKey hkey i)
  obtain ⟨rc, io', hwrites, hs', hstatus⟩ := exec_writes (V := V) hE (hp.io io)
    (hidle.resolve_left (fun h => hne h.1)) key value expiration flags
  refine ⟨l, _, rc, io', hlt, rfl, ?_, hs', hstatus⟩
  rw [exec_lrcSendBinary_distribute hV hp _ key hval expiration flags hl, distribute,
    Proc.exec_bind_ok E c x htrans]
  exact hwrites

/-- `memcached_set` on a client with a loaded placement. -/
theorem exec_memcachedSet {V : CodingMatrix} (hE : Replying E) (hV : FirstRowOnes V)
    (hp : Placed c place) (hs : Io.Synced c.serverCount c.io) {key : Key} (hpos : 0 < key.length)
    (hkey : key.length ≤ 248) {value : Block} (hval : Splits c.numberOfK value)
    (expiration flags : Nat) :
    ∃ l y rc io, (∀ i ∈ l, i < c.numberOfN) ∧
      y = transferState E c.networkCoreServerKey key
        (fullBlock V c.numberOfN c.numberOfK c.numberOfR value) l x ∧
      (memcachedSet V key value expiration flags).exec E c x =
        (.ok (rc, { c with io := io }),
          scatterState E place (storeRequest V c key value expiration flags) y c.numberOfN) ∧
      Io.Synced c.serverCount io ∧ StoreStatus E V c place key value expiration flags y rc := by
  have hcount : c.serverCount ≠ 0 := by
    have := hp.core
    omega
  have htest : memcachedKeyTest key = true := by
    simp only [memcachedKeyTest, Bool.and_eq_true, decide_eq_true_eq]
    omega
  obtain ⟨l, y, rc, io, hlt, hy, he, hs', hstatus⟩ := exec_lrcSendBinary (x := x) hE hV
    (hp.io { c.io with result := .reset }) ⟨hs.conn, hs.idle⟩ hkey hval expiration flags
  refine ⟨l, y, rc, io, hlt, hy, ?_, hs', hstatus⟩
  rw [memcachedSet, exec_memcachedSendWith _ c x key value expiration flags hcount htest
    (hp.nodeServer hp.fail), if_pos hp.lrcMode]
  exact he

end Exec

end OptLrc.Writes
