import OptLrc.Twins
import OptLrc.Rebuild
import OptLrc.Runs

namespace OptLrc.Isolated

open OptLrc.Galois OptLrc.Memory OptLrc.Jerasure OptLrc.Encoder OptLrc.Stripe OptLrc.Process
open OptLrc.Process.Proc OptLrc.Memcached OptLrc.Exchange OptLrc.Rack OptLrc.Storage OptLrc.Retrieval
open OptLrc.Repair OptLrc.Sync OptLrc.Wire OptLrc.Core OptLrc.Fetch OptLrc.Lookup OptLrc.Stored OptLrc.Writes
open OptLrc.Updates OptLrc.Contents OptLrc.Arrival OptLrc.Framed OptLrc.Created OptLrc.Decode OptLrc.Rebuild OptLrc.Twins
open OptLrc.Runs OptLrc.Keeping OptLrc.Statuses

variable {σ Ω β : Type} {E : Env Request Reply σ} {view : σ → World} {order : σ → Ω} {V : CodingMatrix}
  {place pos : Nat → Nat} {z z' : Client × σ} {key : Key} {m : Nat}

section Reads

/-- Twins that wait for the same replies. -/
structure Waiting (view : σ → World) (order : σ → Ω) (place : Nat → Nat) (pending : Nat → Option (List Reply))
    (z z' : Client × σ) : Prop extends Twin view order place z z' where
  pends : Pending z.1.serverCount pending
  conn : z.1.io.conn = pendingConn pending
  conn' : z'.1.io.conn = pendingConn pending

theorem order_exchange (hE : Clocked E view order) (s : Nat) (qs : List Request) (x : σ) :
    order (E.exchange s qs x).2 = order x := by
  induction qs generalizing x with
  | nil => rfl
  | cons q qs ih => rw [Env.exchange, ih, hE.sends]

theorem order_mgetState (hE : Clocked E view order) (route : Key → Nat) (keys : List Key) (x : σ) (count : Nat) :
    order (mgetState E route keys x count) = order x := by
  induction count with
  | zero => rfl
  | succ count ih =>
    unfold mgetState
    split
    · rw [order_exchange hE, ih]
    · exact ih

theorem mgetPending_same {core : Nat} {w w' : World} (h : SameStorage core w w') {route : Key → Nat}
    {keys : List Key} (hroute : ∀ key ∈ keys, route key ≠ core) :
    mgetPending w route keys = mgetPending w' route keys := by
  funext s
  unfold mgetPending hitList
  congr 2
  refine List.filterMap_congr (fun key hkey => ?_)
  rw [h _ (hroute key (List.mem_of_mem_filter hkey))]

theorem route_ne_core (hp : Placed z.1 place) (hpos : ∀ i < m, pos i < z.1.numberOfN) (key : Key) :
    ∀ k ∈ blockKeys key pos m, blockRoute place k ≠ z.1.networkCoreServerKey := by
  have hsmall : z.1.numberOfN ≤ 20 := hp.small
  intro k hk
  obtain ⟨i, hi, rfl⟩ : ∃ i < m, blockKey key (pos i) = k := by simpa [blockKeys] using hk
  have := hpos i hi
  rw [blockRoute_blockKey (by omega)]
  exact hp.away _ this

/-- Both clients ask for the same blocks, and the same replies are on their way. -/
theorem both_mget (hE : Clocked E view order) (h : Twin view order place z z') (hkey : key.length ≤ 248)
    (hpos : ∀ i < m, pos i < z.1.numberOfN) (hm : 0 < m) :
    Both E (memcachedMget (blockKeys key pos m)) (memcachedMget (blockKeys key pos m)) z z'
      (fun rc t rc' t' => rc = .success ∧ rc' = .success ∧ (∃ io, t.1 = { z.1 with io := io }) ∧
        (∃ io, t'.1 = { z'.1 with io := io }) ∧ ∃ pending, Waiting view order place pending t t') := by
  obtain ⟨result, he⟩ := exec_mget_blocks (E := E) (x := z.2) h.left hpos h.leftSynced hkey hm
  obtain ⟨result', he'⟩ := exec_mget_blocks (E := E) (x := z'.2) h.right
    (fun i hi => by rw [h.numberOfN]; exact hpos i hi) h.rightSynced hkey hm
  have hroute := route_lt h.left hpos key
  have hpend := pending_mgetPending (w := view z.2) hroute
  rw [mgetConn_eq hE.toStoring] at he
  rw [mgetConn_eq hE.toStoring, ← mgetPending_same h.storage (route_ne_core h.left hpos key)] at he'
  refine both_ok he he' ⟨rfl, rfl, ⟨_, rfl⟩, ⟨_, rfl⟩, _, ⟨?_, hpend, rfl, rfl⟩⟩
  have hio := h.io (hpend.synced result) (by rw [h.serverCount]; exact hpend.synced result')
  refine ⟨hio.same, hio.apart, hio.left, hio.leftSynced, hio.right, hio.rightSynced, ?_, ?_⟩
  · change SameStorage z.1.networkCoreServerKey (view (mgetState E _ _ z.2 _)) (view (mgetState E _ _ z'.2 _))
    rw [view_mgetState hE.toStoring, view_mgetState hE.toStoring]
    exact h.storage
  · change order (mgetState E _ _ z.2 _) = order (mgetState E _ _ z'.2 _)
    rw [order_mgetState hE, order_mgetState hE]
    exact h.order

theorem Waiting.picks (hE : Clocked E view order) {pending : Nat → Option (List Reply)}
    (h : Waiting view order place pending z z') (s t : Nat) (rest : List Nat) :
    Waiting view order place pending (z.1, (E.pick s t rest z.2).2) (z'.1, (E.pick s t rest z'.2).2) := by
  refine ⟨⟨h.same, h.apart, h.left, h.leftSynced, h.right, h.rightSynced, ?_, (hE.reads s t rest _ _ h.order).2⟩, h.pends,
    h.conn, h.conn'⟩
  change SameStorage z.1.networkCoreServerKey (view (E.pick s t rest z.2).2) (view (E.pick s t rest z'.2).2)
  rw [hE.pick, hE.pick]
  exact h.storage

/-- The same server becomes readable on both sides. -/
theorem both_readableServer (hE : Clocked E view order) {pending : Nat → Option (List Reply)}
    (h : Waiting view order place pending z z') :
    Both E readableServer readableServer z z' (fun s t s' t' => s = s' ∧ z.1 = t.1 ∧
      Waiting view order place pending t t' ∧ ∀ i, s = some i → i < t.1.serverCount ∧ (t.1.io.conn i).responseCount ≠ 0) := by
  have hmem : ∀ s, s ∈ (List.range z.1.serverCount).filter (fun s => 0 < (z.1.io.conn s).responseCount) ↔
      s < z.1.serverCount ∧ (z.1.io.conn s).responseCount ≠ 0 := by
    intro s
    simp [Nat.pos_iff_ne_zero]
  have hlist : (List.range z'.1.serverCount).filter (fun s => 0 < (z'.1.io.conn s).responseCount) =
      (List.range z.1.serverCount).filter (fun s => 0 < (z.1.io.conn s).responseCount) := by
    rw [h.serverCount, h.conn, h.conn']
  cases hl : (List.range z.1.serverCount).filter (fun s => 0 < (z.1.io.conn s).responseCount) with
  | nil =>
    rw [hl] at hlist
    refine Or.inr ⟨none, z, none, z', ?_, ?_, rfl, rfl, h, by simp⟩
    · simp [readableServer, Proc.exec_bind, hl]
    · simp [readableServer, Proc.exec_bind, hlist]
  | cons s rest =>
    rw [hl] at hlist
    cases rest with
    | nil =>
      refine Or.inr ⟨some s, z, some s, z', ?_, ?_, rfl, rfl, h, fun i hi => ?_⟩
      · simp [readableServer, Proc.exec_bind, hl]
      · simp [readableServer, Proc.exec_bind, hlist]
      · cases hi
        exact (hmem s).mp (by simp [hl])
    | cons t rest =>
      have hsame := (hE.reads s t rest _ _ h.order).1
      have hin := E.pick_mem s t rest z.2
      rw [← hl] at hin
      refine Or.inr ⟨some (E.pick s t rest z.2).1, (z.1, (E.pick s t rest z.2).2), some (E.pick s t rest z'.2).1,
        (z'.1, (E.pick s t rest z'.2).2), ?_, ?_, by rw [hsame], rfl, h.picks hE s t rest, fun i hi => ?_⟩
      · simp [readableServer, Proc.exec_bind, hl]
      · simp [readableServer, Proc.exec_bind, hlist]
      · cases hi
        exact (hmem _).mp hin

/-- Both clients read the next reply. -/
theorem Waiting.update {pending : Nat → Option (List Reply)} (h : Waiting view order place pending z z')
    {s : Nat} (hs : s < z.1.serverCount) {hits : Option (List Reply)}
    (hq : ∀ l, hits = some l → ∀ reply ∈ l, Reply.quietHit reply) (result result' : Result) :
    Waiting view order place (Function.update pending s hits)
      ({ z.1 with io := ⟨pendingConn (Function.update pending s hits), result⟩ }, z.2)
      ({ z'.1 with io := ⟨pendingConn (Function.update pending s hits), result'⟩ }, z'.2) := by
  have hp := h.pends.update hs hq
  exact ⟨h.io (hp.synced result) (by rw [h.serverCount]; exact hp.synced result'), hp, rfl, rfl⟩

theorem both_fetchLoop (hE : Clocked E view order) (fuel : Nat) (error : ReturnCode)
    {pending : Nat → Option (List Reply)} (h : Waiting view order place pending z z')
    (hf : Client.unread z.1 < fuel) :
    Both E (fetchLoop fuel error) (fetchLoop fuel error) z z'
      (fun r t r' t' => r.1 = r'.1 ∧ ∃ pending, Waiting view order place pending t t') := by
  induction fuel generalizing z z' error pending with
  | zero => omega
  | succ fuel ih =>
    refine (both_readableServer hE h).bind ?_
    rintro s ⟨c, x⟩ _ ⟨c', x'⟩ ⟨rfl, rfl, hw, howes⟩
    cases s with
    | none => exact both_pure ⟨rfl, pending, hw⟩
    | some s =>
      obtain ⟨hlt, h0⟩ := howes s rfl
      obtain ⟨hits, hps⟩ := pending_of_owing hw.conn h0
      cases hits with
      | cons reply rest =>
        have hq := hw.pends.quiet s _ hps
        refine both_ok (exec_fetchTurn_hit E _ hw.conn x hps (hq reply (by simp)))
          (exec_fetchTurn_hit E _ hw.conn' x' hps (hq reply (by simp))) ⟨rfl, _, hw.update hlt ?_ _ _⟩
        rintro l ⟨⟩ reply' hr
        exact hq reply' (by simp [hr])
      | nil =>
        refine (ih .notFound (hw.update hlt (fun l hl => by cases hl) z.1.io.result c'.io.result) ?_).congr
          (exec_fetchTurn_end E _ hw.conn x hps) (exec_fetchTurn_end E _ hw.conn' x' hps)
        exact Nat.lt_of_lt_of_le (unread_end hw.conn hlt hps _) (Nat.lt_succ_iff.mp hf)

/-- Both clients compute the same from the replies. -/
theorem both_fetchEach (hE : Clocked E view order) (body : β → Result → Except Fault β) (m : Nat) (st : β)
    {pending : Nat → Option (List Reply)} (h : Waiting view order place pending z z') :
    Both E (fetchEach body m st) (fetchEach body m st) z z'
      (fun a t a' t' => a = a' ∧ Twin view order place t t') := by
  induction m generalizing z z' st pending with
  | zero => exact both_pure ⟨rfl, h.toTwin⟩
  | succ m ih =>
    have hloop := both_fetchLoop hE (Client.unread z.1 + 1) .notFound h (Nat.lt_succ_self _)
    have hsame : Client.unread z'.1 = Client.unread z.1 := by
      rw [Client.unread, Client.unread, h.serverCount, h.conn, h.conn']
    have hfetch : Both E memcachedFetchResult memcachedFetchResult z z'
        (fun r t r' t' => r.1 = r'.1 ∧ ∃ pending, Waiting view order place pending t t') := by
      refine hloop.congr rfl ?_
      change (fetchLoop (Client.unread z'.1 + 1) .notFound).exec E z'.1 z'.2 = _
      rw [hsame]
    refine hfetch.bind ?_
    rintro ⟨result, rc⟩ t ⟨_, rc'⟩ t' ⟨rfl, pending, hw⟩
    cases result with
    | none => exact ih st hw
    | some result =>
      refine (both_lift (Q := fun a t1 a' t1' => a = a' ∧ t = t1 ∧ t' = t1') (fun a _ => ⟨rfl, rfl, rfl⟩)).bind ?_
      rintro st t _ t' ⟨rfl, rfl, rfl⟩
      exact ih st hw

end Reads

section Calls

/-- Both clients refuse the call. -/
theorem both_refused (h : Twin view order place z z') {u : Call}
    (hu : ∀ key valueLength p, u = .repair key valueLength p → p < z.1.numberOfN) (hr : Refused u) :
    Both E (u.prog V) (u.prog V) z z' (fun _ t _ t' => Twin view order place t t') := by
  obtain ⟨rc, c, he, hk⟩ := exec_refused (E := E) (V := V) (x := z.2) h.left.lrcMode hu (Or.inr hr)
  obtain ⟨rc', c', he', hk'⟩ := exec_refused (E := E) (V := V) (x := z'.2) h.right.lrcMode
    (by rw [h.numberOfN]; exact hu) (Or.inr hr)
  obtain ⟨io, rfl, hs⟩ := hk.io h.leftSynced
  obtain ⟨io', rfl, hs'⟩ := hk'.io h.rightSynced
  exact both_ok he he' (h.io hs hs')

theorem both_memcachedSet (hE : Clocked E view order) (hV : FirstRowOnes V) (h : Twin view order place z z')
    (key : Key) (value : Block) (expiration flags : Nat) :
    Both E (memcachedSet V key value expiration flags) (memcachedSet V key value expiration flags) z z'
      (fun _ t _ t' => Twin view order place t t') := by
  by_cases hkey : memcachedKeyTest key = true
  · have hcount : z.1.serverCount ≠ 0 := by
      have := h.left.core
      omega
    have hfail : z'.1.failNodeIndex = z.1.failNodeIndex := by
      obtain ⟨scheme, racks, io, he⟩ := h.same
      rw [he]
    have hreset : Twin view order place (Client.resetResult z.1, z.2) (Client.resetResult z'.1, z'.2) :=
      h.io ⟨h.leftSynced.conn, h.leftSynced.idle⟩ ⟨h.rightSynced.conn, h.rightSynced.idle⟩
    refine (both_lrcSendBinary hE hV hreset key value expiration flags).congr ?_ ?_
    · rw [memcachedSet, exec_memcachedSendWith _ z.1 z.2 key value expiration flags hcount hkey
        (h.left.nodeServer h.left.fail), if_pos h.left.lrcMode]
      rfl
    · rw [memcachedSet, exec_memcachedSendWith _ z'.1 z'.2 key value expiration flags
        (by rw [h.serverCount]; exact hcount) hkey (h.right.nodeServer h.right.fail), if_pos h.right.lrcMode, hfail]
      rfl
  · exact both_refused (u := .set key value expiration flags) h (by simp) (by simpa [Refused] using hkey)

theorem faults_delete {c : Client} {x : σ} (hp : Placed c place) (hkey : key.length ≤ 248) {index : Nat} {e : Fault}
    (hnode : c.nodeServer index = .error e) : (memcachedDeleteByKeyLrc key 0 index).Faults E c x := by
  have hcount : c.serverCount ≠ 0 := by
    have := hp.core
    omega
  have hnode' : (Client.resetResult c).nodeServer index = .error e := hnode
  refine ⟨e, x, ?_⟩
  simp only [memcachedDeleteByKeyLrc, Proc.exec_bind, exec_initializeQuery E c x hcount, ne_eq,
    not_true_eq_false, if_false, keyTest_blockKey hkey, Proc.exec_get, hnode', Proc.exec_lift_error]

/-- A delete of any block: if `node2rack` has no server for it, neither client has one. -/
theorem both_delete (hE : Clocked E view order) (h : Twin view order place z z') (key : Key)
    (expiration index : Nat) :
    Both E (memcachedDeleteByKeyLrc key expiration index) (memcachedDeleteByKeyLrc key expiration index) z z'
      (fun _ t _ t' => Twin view order place t t') := by
  by_cases hr : 248 < key.length ∨ expiration ≠ 0
  · exact both_refused (V := fun _ _ _ _ => 1) (u := .delete key expiration index) h (by simp) hr
  · push Not at hr
    obtain ⟨hkey, rfl⟩ := hr
    have hserver : z'.1.nodeServer index = z.1.nodeServer index := by
      obtain ⟨scheme, racks, io, he⟩ := h.same
      rw [he]
      rfl
    cases hs : z.1.nodeServer index with
    | error e => exact both_faults (faults_delete h.left hkey hs) (faults_delete h.right hkey (hserver.trans hs))
    | ok s =>
      obtain ⟨rc, conn, result, he, hsync, -⟩ := exec_delete_at (x := z.2) (Storing.replying hE.toStoring) h.left
        h.leftSynced hkey hs
      obtain ⟨rc', conn', result', he', hsync', -⟩ := exec_delete_at (x := z'.2) (Storing.replying hE.toStoring)
        h.right h.rightSynced hkey (hserver.trans hs)
      have hlt := nodeServer_lt hs
      exact both_ok he he' (h.serve hE (synced_set h.leftSynced hsync hlt result)
        (synced_set h.rightSynced hsync' (nodeServer_lt (hserver.trans hs)) result') (h.server_apart hs))

/-- The blocks go through the core as often as the racks of each client say. -/
theorem both_crossTimes (hE : Clocked E view order) (h : Twin view order place z z') (key : Key) {ptrs : Cells Block}
    {block : Block} (hread : ptrs.read 0 = .ok block) {size : Nat} (hsize : size ≤ block.length) (m m' : Nat) :
    Both E (crossTimes key ptrs size m) (crossTimes key ptrs size m') z z'
      (fun _ t _ t' => Twin view order place t t' ∧ Within z.1 t.1) := by
  obtain ⟨io, y, he, hs, hy⟩ := exec_crossTimes (x := z.2) (Storing.replying hE.toStoring) h.left h.leftSynced key
    hread hsize m
  obtain ⟨io', y', he', hs', hy'⟩ := exec_crossTimes (x := z'.2) (Storing.replying hE.toStoring) h.right
    h.rightSynced key hread hsize m'
  exact both_ok he he' ⟨h.coreBoth hE hs hs' hy hy', io, rfl⟩

/-- The pointer to the parity that the decoder reads. -/
theorem clearedCoding_read {st : Group} {count e : Nat} {coding sub : Cells Block} {out : Cells Block × Cells Block}
    (hones : ∀ j < count, V count 1 0 j = 1) (he : e ≤ count) (hc : clearedCoding st count e = .ok coding)
    (hd : decodingParityPtrsLrc V sub count coding st.blockSize e = .ok out) :
    ∃ block, coding.read 0 = .ok block ∧ st.blockSize ≤ block.length := by
  by_cases hec : e = count
  · rw [clearedCoding, if_pos hec, Cells.write, Cells.put] at hc
    split at hc
    · next hlt =>
      cases hc
      exact ⟨zeroBlock st.blockSize, Cells.read_eq (by simp [hlt]), by simp⟩
    · cases hc
  · exact decode_reads_parity hones (by omega) hd

theorem both_decodeGroup (hE : Clocked E view order) (h : Twin view order place z z') (key : Key) (k r i : Nat)
    {count e : Nat} (hones : ∀ j < count, V count 1 0 j = 1) (he : e ≤ count) (num num' : Nat) (st : Group) :
    Both E (decodeGroup V key k r i count e num st) (decodeGroup V key k r i count e num' st) z z'
      (fun a t a' t' => a = a' ∧ Twin view order place t t' ∧ Within z.1 t.1) := by
  unfold decodeGroup
  refine (both_lift (Q := fun a t a' t' => clearedCoding st count e = .ok a ∧ a = a' ∧ z = t ∧ z' = t')
    (fun a ha => ⟨ha, rfl, rfl, rfl⟩)).bind ?_
  rintro coding _ _ _ ⟨hc, rfl, rfl, rfl⟩
  refine (both_lift (Q := fun a t a' t' => a = a' ∧ z = t ∧ z' = t') (fun a _ => ⟨rfl, rfl, rfl⟩)).bind ?_
  rintro sub _ _ _ ⟨rfl, rfl, rfl⟩
  cases hd : decodingParityPtrsLrc V sub count coding st.blockSize e with
  | error err =>
    exact both_faults (faults_bind (fun _ _ _ _ => (faults_lift _ rfl).bind _))
      (faults_bind (fun _ _ _ _ => (faults_lift _ rfl).bind _))
  | ok out =>
    obtain ⟨block, hread, hsize⟩ := clearedCoding_read hones he hc hd
    refine (both_crossTimes hE h _ hread hsize num num').bind ?_
    rintro - t - t' ⟨ht, hwithin⟩
    refine (both_lift (Q := fun a y a' y' => a = a' ∧ t = y ∧ t' = y') (fun a _ => ⟨rfl, rfl, rfl⟩)).bind ?_
    rintro ⟨sub', coding'⟩ _ _ _ ⟨rfl, rfl, rfl⟩
    refine (both_lift (Q := fun a y a' y' => a = a' ∧ t = y ∧ t' = y') (fun a _ => ⟨rfl, rfl, rfl⟩)).bind ?_
    rintro block' _ _ _ ⟨rfl, rfl, rfl⟩
    exact both_pure ⟨rfl, ht, hwithin⟩

theorem both_rebuild (hE : Clocked E view order) (hV : FirstRowOnes V) (h : Twin view order place z z')
    (hkey : key.length ≤ 248) (valueLength : Nat) {p : Nat} (hp : p < z.1.numberOfN) :
    Both E (rebuild V key valueLength p) (rebuild V key valueLength p) z z'
      (fun a t a' t' => a = a' ∧ Twin view order place t t' ∧ Within z.1 t.1) := by
  have hv := h.left.valid
  obtain ⟨i, hi, e, he, rfl⟩ := exists_position hv.r_pos p hp
  have hones : ∀ j < groupCount z.1.numberOfN z.1.numberOfR i, V (groupCount z.1.numberOfN z.1.numberOfR i) 1 0 j = 1 := by
    have := group_lt hv.r_pos hi le_rfl
    exact localOnes hV h.left.small _ (by omega)
  obtain ⟨num, hnum⟩ := exec_rebuild_eq (E := E) (V := V) (x := z.2) h.left key valueLength hi he
  obtain ⟨num', hnum'⟩ : ∃ num, (rebuild V key valueLength (i * (z.1.numberOfR + 1) + e)).exec E z'.1 z'.2 =
      (rebuildGroup V key valueLength z.1.numberOfK z.1.numberOfR i (groupCount z.1.numberOfN z.1.numberOfR i) e
        num).exec E z'.1 z'.2 := by
    have hright := h.right
    obtain ⟨scheme, racks, io, hsame⟩ := h.same
    rw [hsame] at hright ⊢
    exact exec_rebuild_eq hright key valueLength hi he
  refine Both.congr ?_ hnum hnum'
  refine (both_mget hE h hkey (fun j hj => ?_) (Nat.succ_pos _)).bind ?_
  · have := group_lt hv.r_pos hi (Nat.lt_succ_iff.mp hj)
    change j + i * (z.1.numberOfR + 1) < z.1.numberOfN
    omega
  rintro rc t rc' t' ⟨rfl, rfl, hwithin, -, pending, hw⟩
  rw [if_pos rfl, if_pos rfl]
  refine ((both_fetchEach hE _ _ _ hw).left (keepsClient_fetchEach _ _ _ σ E z.1) hwithin).bind ?_
  rintro st t _ t' ⟨⟨rfl, ht⟩, io, hio⟩
  refine (both_decodeGroup hE ht key _ _ i hones he num num' st).mono ?_
  rintro a y a' y' ⟨ha, hy, io', hio'⟩
  exact ⟨ha, hy, io', by rw [hio', hio]⟩

/-- Both clients write the block back to the server where it belongs. -/
theorem both_writeBack (hE : Clocked E view order) (h : Twin view order place z z') (hkey : memcachedKeyTest key = true)
    (block : Block) (size : Nat) :
    Both E (writeBack V key block size) (writeBack V key block size) z z'
      (fun _ t _ t' => Twin view order place t t') := by
  have hfail := h.left.fail
  have hsame : place z'.1.failNodeIndex = place z.1.failNodeIndex := by
    obtain ⟨scheme, racks, io, he⟩ := h.same
    rw [he]
  rcases Nat.lt_or_ge block.length size with hsize | hsize
  · have hread : readRange block 0 size = .error .outOfBounds := if_neg (by omega)
    exact both_faults (faults_bind (fun _ _ _ _ => (faults_lift _ hread).bind _))
      (faults_bind (fun _ _ _ _ => (faults_lift _ hread).bind _))
  · obtain ⟨io, he, hs⟩ := exec_writeBack (x := z.2) (Storing.replying hE.toStoring) h.left h.leftSynced V hkey hsize
    obtain ⟨io', he', hs'⟩ := exec_writeBack (x := z'.2) (Storing.replying hE.toStoring) h.right h.rightSynced V hkey
      hsize
    rw [hsame] at he'
    refine both_ok he he' ?_
    exact (h.serve hE (q := .set key (block.take size) 0 86400) hs hs' (h.left.away _ hfail)).written Nat.one_pos

theorem both_repair (hE : Clocked E view order) (hV : FirstRowOnes V) (h : Twin view order place z z') (key : Key)
    (valueLength : Nat) {p : Nat} (hp : p < z.1.numberOfN) :
    Both E (memcachedRepair V key valueLength p) (memcachedRepair V key valueLength p) z z'
      (fun _ t _ t' => Twin view order place t t') := by
  rcases Nat.lt_or_ge 248 key.length with hkey | hkey
  · obtain ⟨rc, c, he, hk⟩ := exec_repair_refused (E := E) (V := V) (x := z.2) valueLength hp (Or.inr hkey)
    obtain ⟨rc', c', he', hk'⟩ := exec_repair_refused (E := E) (V := V) (x := z'.2) valueLength
      (by rw [h.numberOfN]; exact hp) (Or.inr hkey)
    obtain ⟨io, rfl, hs⟩ := hk.io h.leftSynced
    obtain ⟨io', rfl, hs'⟩ := hk'.io h.rightSynced
    exact both_ok he he' (h.io hs hs')
  · refine (both_rebuild hE hV h hkey valueLength hp).bind ?_
    rintro ⟨rc, rebuilt⟩ t _ t' ⟨rfl, ht, io, hio⟩
    have hp' : p < t.1.numberOfN := by
      rw [hio]
      exact hp
    cases rebuilt with
    | none => exact both_pure ht
    | some rebuilt =>
      obtain ⟨block, size, flags⟩ := rebuilt
      refine (both_modify (Q := fun _ y _ y' => Twin view order place y y') (ht.failing hp')).bind ?_
      rintro - y - y' hy
      exact (both_writeBack hE hy (keyTest_blockKey hkey p) block size).bind (fun _ _ _ _ hw => both_pure hw)

/-- A repair is given a block of the code. -/
def Repairs (n : Nat) : Update → Prop
  | .repair _ _ p => p < n
  | _ => True

theorem both_update (hE : Clocked E view order) (hV : FirstRowOnes V) (h : Twin view order place z z') {u : Update}
    (hu : Repairs z.1.numberOfN u) :
    Both E (u.prog V) (u.prog V) z z' (fun _ t _ t' => Twin view order place t t') := by
  cases u with
  | set key value expiration flags =>
    exact (both_memcachedSet hE hV h key value expiration flags).bind (fun _ _ _ _ ht => both_pure ht)
  | delete key expiration index =>
    exact (both_delete hE h key expiration index).bind (fun _ _ _ _ ht => both_pure ht)
  | repair key valueLength p =>
    exact (both_repair hE hV h key valueLength hu).bind (fun _ _ _ _ ht => both_pure ht)

end Calls

section Legal

variable {n k r core : Nat} {values : Values} {w w' : World}

theorem effect_same (h : SameStorage core w w') (u : Update) :
    SameStorage core (u.effect V n k r place values w) (u.effect V n k r place values w') := by
  cases u with
  | set key value expiration flags => exact h.putBlocks n
  | delete key expiration index =>
    simp only [Update.effect]
    split
    · exact h.put _ _ none
    · exact h
  | repair key valueLength p =>
    simp only [Update.effect]
    cases values key with
    | none => exact h
    | some value => exact h.put _ _ _

theorem legal_same (h : SameStorage core w w') (haway : ∀ q < n, place q ≠ core) {u : Update}
    (hu : u.Legal n k r place values w) : u.Legal n k r place values w' := by
  cases u with
  | set key value expiration flags => exact hu
  | delete key expiration index => exact hu
  | repair key valueLength p =>
    obtain ⟨hkey, hp, hval, hothers⟩ := hu
    refine ⟨hkey, hp, hval, fun q hq hdiv hne => ?_⟩
    obtain ⟨item, hitem⟩ := hothers q hq hdiv hne
    exact ⟨item, by rw [← h _ (haway q hq), hitem]⟩

/-- The same legal run of two clients of one placement leaves the same blocks, whatever the order
in which the replies of each arrive. -/
theorem legal_runs_same {σ' : Type} {E' : Env Request Reply σ'} {view' : σ' → World} (hE : Storing E view)
    (hE' : Storing E' view') (hV : FirstRowOnes V) {c d : Client}
    (hd : ∃ scheme racks io, d = { c with encodingScheme := scheme, nodeRack := racks, io := io }) (us : List Update)
    {c' d' : Client} {x : σ} {x' : σ'} (h : Settled V c place values c' (view x))
    (h' : Settled V d place values d' (view' x')) (hsame : SameStorage c.networkCoreServerKey (view x) (view' x'))
    (hlegal : LegalRun E view V c.numberOfN c.numberOfK c.numberOfR place values c' x us) :
    ∃ c'' y d'' y', (Proc.each (Update.prog V) us).exec E c' x = (.ok ((), c''), y) ∧
      (Proc.each (Update.prog V) us).exec E' d' x' = (.ok ((), d''), y') ∧
      SameStorage c.networkCoreServerKey (view y) (view' y') := by
  obtain ⟨scheme, racks, io, rfl⟩ := hd
  induction us generalizing values c' d' x x' with
  | nil => exact ⟨c', x, d', x', rfl, rfl, hsame⟩
  | cons u us ih =>
    have haway : ∀ q < c.numberOfN, place q ≠ c.networkCoreServerKey := by
      obtain ⟨fail, b, io, rfl⟩ := h.code.exists
      exact h.placed.away
    obtain ⟨c1, y, hex, hset, heffect⟩ := update_step hE hV h hlegal.1
    obtain ⟨d1, y', hex', hset', heffect'⟩ := update_step hE' hV h' (legal_same hsame haway hlegal.1)
    obtain ⟨c2, w, d2, w', hrun, hrun', hfinal⟩ := ih hset
      (heffect.trans ((effect_same hsame u).trans heffect'.symm)) (hlegal.2 c1 y hex) hset'
    refine ⟨c2, w, d2, w', ?_, ?_, hfinal⟩
    · rw [Proc.exec_each_cons, Proc.exec_bind_ok E c' x hex, hrun]
    · rw [Proc.exec_each_cons, Proc.exec_bind_ok E' d' x' hex', hrun']

end Legal

section Runs

theorem sameCode_within {c₀ c c' : Client} (h : SameCode c₀ c) (hw : Within c c') : SameCode c₀ c' := by
  obtain ⟨fail, b, io, rfl⟩ := h.exists
  obtain ⟨io', rfl⟩ := hw
  rfl

theorem triple_update (hE : Replying E) (c₀ : Client) {u : Update} (hu : Repairs c₀.numberOfN u) :
    Triple E (Ready c₀ place) (u.prog V) (fun _ => SameCode c₀) := by
  cases u with
  | set key value expiration flags =>
    intro c x a c' y hc he
    obtain ⟨rc, c1, y1, hset, hpure⟩ := exec_bind_eq_ok E c x he
    cases hpure
    exact sameCode_within hc.code (triple_memcachedSet hc.placed.loaded hc.placed.notCore key value expiration flags
      c x rc c' y (within_refl c) hset)
  | delete key expiration index =>
    intro c x a c' y hc he
    obtain ⟨rc, c1, y1, hdel, hpure⟩ := exec_bind_eq_ok E c x he
    cases hpure
    exact sameCode_within hc.code (keepsClient_memcachedDeleteByKeyLrc key expiration index σ E c c x rc c' y
      (within_refl c) hdel)
  | repair key valueLength p =>
    exact (triple_memcachedRepair hE key valueLength hu).bind (fun _ => triple_pure (fun _ h => h.code))

/-- Two runs of the same calls that differ in the scheme, the racks and what the core holds. -/
theorem both_run (hE : Clocked E view order) (hV : FirstRowOnes V) (h : Twin view order place z z') (us : List Update)
    (hus : ∀ u ∈ us, Repairs z.1.numberOfN u) :
    Both E (Proc.each (Update.prog V) us) (Proc.each (Update.prog V) us) z z'
      (fun _ t _ t' => Twin view order place t t' ∧ SameCode z.1 t.1) := by
  refine Both.each (R := fun t t' => Twin view order place t t' ∧ SameCode z.1 t.1) (fun u hu t t' ht => ?_) ⟨h, rfl⟩
  have hn : t.1.numberOfN = z.1.numberOfN := by
    obtain ⟨fail, b, io, hc⟩ := ht.2.exists
    rw [hc]
  exact (both_update hE hV ht.1 (by rw [hn]; exact hus u hu)).left
    (triple_update (Storing.replying hE.toStoring) z.1 (hus u hu)) ⟨ht.2, ht.1.left, ht.1.leftSynced⟩

/-- The traffic through the core does not show on the storage servers. The runs of two clients that
differ in the encoding scheme, in the racks and in what the core holds leave the same contents; a
legal run does so whatever the order in which the replies of each client arrive. Core mode is off
after every call and after every transfer. -/
theorem storage_isolated (hE : Clocked E view order) (hV : FirstRowOnes V) (h : Twin view order place z z')
    (us : List Update) (hus : ∀ u ∈ us, Repairs z.1.numberOfN u) :
    Both E (Proc.each (Update.prog V) us) (Proc.each (Update.prog V) us) z z' (fun _ t _ t' =>
      SameStorage z.1.networkCoreServerKey (view t.2) (view t'.2) ∧ t.1.isCore = false ∧ t'.1.isCore = false) ∧
    (∀ (σ' : Type) (E' : Env Request Reply σ') (view' : σ' → World) (x' : σ') (values : Values), Storing E' view' →
      SameStorage z.1.networkCoreServerKey (view z.2) (view' x') →
      (∀ key value, values key = some value → Splits z.1.numberOfK value) →
      Stripes V z.1.numberOfN z.1.numberOfK z.1.numberOfR place z.1.networkCoreServerKey values (view z.2) →
      LegalRun E view V z.1.numberOfN z.1.numberOfK z.1.numberOfR place values z.1 z.2 us →
      ∃ c y c' y', (Proc.each (Update.prog V) us).exec E z.1 z.2 = (.ok ((), c), y) ∧
        (Proc.each (Update.prog V) us).exec E' z'.1 x' = (.ok ((), c'), y') ∧
        SameStorage z.1.networkCoreServerKey (view y) (view' y')) ∧
    ∀ key value, Triple E (fun _ => True) (crossNetworkcore key value) (fun _ c => c.isCore = false) := by
  refine ⟨(both_run hE hV h us hus).mono ?_, ?_, ?_⟩
  · rintro - t - t' ⟨ht, hcode⟩
    have hstorage := ht.storage
    obtain ⟨fail, b, io, hc⟩ := hcode.exists
    rw [hc] at hstorage
    exact ⟨hstorage, ht.left.notCore, ht.right.notCore⟩
  · intro σ' E' view' x' values hE' hsame hsplits hstripes hlegal
    have hset' : Settled V z'.1 place values z'.1 (view' x') := by
      have hright := h.right
      have hsynced := h.rightSynced
      obtain ⟨scheme, racks, io, he⟩ := h.same
      rw [he] at hright hsynced ⊢
      exact ⟨rfl, hright, hsynced, hsplits, hstripes.same hsame.symm⟩
    exact legal_runs_same hE.toStoring hE' hV h.same us ⟨rfl, h.left, h.leftSynced, hsplits, hstripes⟩ hset' hsame
      hlegal
  · intro key value c x a c' y _ he
    obtain ⟨io, hc⟩ := triple_crossNetworkcore key value c x a c' y (within_refl c) he
    rw [hc]

/-- The same client with encoding scheme 1 and a rack for each block. -/
def otherClient : Client :=
  { sampleClient 2 1 1 with encodingScheme := 1, nodeRack := (List.range maxNodes).map some }

/-- Servers that hold nothing, but for the core. -/
def otherWorld : World := fun s key => if s = 2 ∧ key = blockKey [1] 0 then some ⟨[7], 0, 0⟩ else none

theorem clocked_storingEnv : Clocked storingEnv id (fun _ => ()) where
  toStoring := storing_storingEnv
  sends _ _ _ := rfl
  reads _ _ _ _ _ _ := ⟨rfl, rfl⟩

theorem twin_otherClient :
    Twin id (fun _ => ()) id (sampleClient 2 1 1, fun _ _ => none) (otherClient, otherWorld) := by
  have hp := placed_sampleClient (n := 2) (k := 1) (r := 1) ⟨by decide, by decide, by decide⟩ (by decide)
  refine ⟨⟨1, (List.range maxNodes).map some, .idle, rfl⟩, fun i s hs => ?_, hp, synced_sampleClient 2 1 1,
    ⟨rfl, hp.valid, hp.small, hp.b_pos, rfl, hp.node, hp.server, hp.core, hp.away, fun i hi => ⟨i, ?_⟩, hp.fail⟩,
    synced_sampleClient 2 1 1, fun s hs => ?_, rfl⟩
  · change s ≠ 2
    change Cells.read ((List.range maxNodes).map (fun i => if i < 2 then some i else none)) i = .ok s at hs
    unfold Cells.read at hs
    rw [List.getElem?_map] at hs
    cases hi : (List.range maxNodes)[i]? with
    | none => simp [hi] at hs
    | some j =>
      by_cases hj : j < 2
      · simp only [hi, Option.map_some, hj, if_true, Except.ok.injEq] at hs
        omega
      · simp only [hi, Option.map_some, hj, if_false] at hs
        cases hs
  · have hlt : i < 2 := hi
    have hmax : i < maxNodes := Nat.lt_of_lt_of_le hlt (by decide)
    exact Cells.read_eq (by simp [otherClient, hmax])
  · funext key
    have : s ≠ 2 := hs
    simp [otherWorld, this]

theorem storage_isolated_sampleRun : Both storingEnv (Proc.each (Update.prog (fun _ _ _ _ => 1)) sampleRun)
    (Proc.each (Update.prog (fun _ _ _ _ => 1)) sampleRun) (sampleClient 2 1 1, fun _ _ => none)
    (otherClient, otherWorld) (fun _ t _ t' => SameStorage 2 t.2 t'.2 ∧ t.1.isCore = false ∧ t'.1.isCore = false) := by
  refine (storage_isolated clocked_storingEnv firstRowOnes_one twin_otherClient sampleRun (fun u hu => ?_)).1
  rcases List.mem_cons.mp hu with rfl | hu
  · trivial
  rcases List.mem_cons.mp hu with rfl | hu
  · trivial
  rw [List.mem_singleton.mp hu]
  change 1 < 2
  omega

end Runs

end OptLrc.Isolated
