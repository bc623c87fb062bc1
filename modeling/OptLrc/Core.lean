import OptLrc.Storage
import OptLrc.Wire
import Mathlib.Algebra.Order.BigOperators.Group.List

namespace OptLrc.Core

open OptLrc.Galois OptLrc.Memory OptLrc.Jerasure OptLrc.Encoder OptLrc.Process OptLrc.Memcached
open OptLrc.Exchange OptLrc.Storage OptLrc.Sync OptLrc.Wire

def Request.opcode : Request → Opcode
  | .set .. => .set
  | .getk _ => .getk
  | .getkq _ => .getkq
  | .noop => .noop
  | .delete _ => .delete

variable {σ : Type}

/-- Each request has one reply, whatever its status; a quiet get has none, or a hit, or an error
that closes the connection. -/
structure Replying (E : Env Request Reply σ) : Prop where
  one : ∀ s q x, Request.opcode q ≠ .getkq →
    ∃ reply, (E.serve s q x).1 = [reply] ∧ reply.opcode = Request.opcode q
  quiet : ∀ s key x, ∀ reply ∈ (E.serve s (.getkq key) x).1, Reply.quietHit reply ∨ Reply.fatal reply

theorem not_quietHit {reply : Reply} {opcode : Opcode} (h : reply.opcode = opcode)
    (hne : opcode ≠ .getkq) : ¬ Reply.quietHit reply := fun hq => hne (h.symm.trans hq.2)

theorem Storing.replying {E : Env Request Reply σ} {view : σ → World} (hE : Storing E view) :
    Replying E where
  one := by
    intro s q x hq
    rw [hE.replies]
    cases q with
    | set key value flags expiration => exact ⟨.ok .set, rfl, rfl⟩
    | getk key =>
      cases hw : view x s key with
      | none => exact ⟨.failed .getk .keyEnoent, by simp [serve, hw], rfl⟩
      | some item => exact ⟨.hit .getk key item, by simp [serve, hw], rfl⟩
    | getkq key => exact absurd rfl hq
    | noop => exact ⟨.ok .noop, rfl, rfl⟩
    | delete key =>
      cases hw : view x s key with
      | none => exact ⟨.failed .delete .keyEnoent, by simp [serve, hw], rfl⟩
      | some item => exact ⟨.ok .delete, by simp [serve, hw], rfl⟩
  quiet := by
    intro s key x reply hr
    rw [hE.replies] at hr
    unfold serve at hr
    cases hw : view x s key with
    | none => simp [hw] at hr
    | some item =>
      simp only [hw, List.mem_singleton] at hr
      subst hr
      exact Or.inl ⟨rfl, rfl⟩

section Single

variable (E : Env Request Reply σ) (c : Client) (x : σ)

theorem filter_singleConn {s count : Nat} (hs : s < count) (replies : List Reply) :
    (List.range count).filter (fun t => 0 < (singleConn s replies t).responseCount) = [s] := by
  have hp : (fun t => decide (0 < (singleConn s replies t).responseCount)) = (fun t => t == s) := by
    funext t
    by_cases h : t = s <;> simp [singleConn, h, Conn.idle]
  rw [hp, List.filter_beq, List.count_eq_one_of_mem List.nodup_range (List.mem_range.mpr hs)]
  rfl

theorem exec_readableServer_idle (h : c.io.conn = fun _ => .idle) :
    readableServer.exec E c x = (.ok (none, c), x) := by
  simp [readableServer, Proc.exec_bind, h, Conn.idle]

theorem le_unread {s : Nat} (hs : s < c.serverCount) : (c.io.conn s).inbox.length ≤ Client.unread c :=
  List.single_le_sum (fun _ _ => Nat.zero_le _) _ (List.mem_map.mpr ⟨s, List.mem_range.mpr hs, rfl⟩)

theorem readOneResponse_last {reply : Reply} (hq : ¬ Reply.quietHit reply) (result : Result) :
    ∃ rc result', readOneResponse ⟨[], [reply], 1⟩ result = .ok (rc, .idle, result') := by
  have hs : Conn.Synced ⟨[], [reply], 1⟩ := ⟨rfl, settles_quiet [] (by simp) hq⟩
  obtain ⟨rc, conn, result', he, hsync, hlt⟩ := readOneResponse_synced hs (by simp) result
  refine ⟨rc, result', ?_⟩
  rw [he, eq_idle hsync]
  have := hsync.settles
  rwa [List.eq_nil_of_length_eq_zero (Nat.lt_one_iff.mp hlt)] at this

/-- What `memcached_fetch_result` makes of the last reply. -/
def lastFetch (rc : ReturnCode) (result : Result) : Option Result × ReturnCode :=
  match rc with
  | .success => (some result, .success)
  | .finished | .notFound => (none, .notFound)
  | rc => (none, rc)

theorem exec_fetchResult_single {s : Nat} {reply : Reply} (hs : s < c.serverCount)
    (hc : c.io.conn = singleConn s [reply]) (hq : ¬ Reply.quietHit reply) :
    ∃ rc result, readOneResponse ⟨[], [reply], 1⟩ c.io.result = .ok (rc, .idle, result) ∧
      memcachedFetchResult.exec E c x =
        (.ok (lastFetch rc result, { c with io := ⟨fun _ => .idle, result⟩ }), x) := by
  obtain ⟨rc, result, hlast⟩ := readOneResponse_last hq c.io.result
  refine ⟨rc, result, hlast, ?_⟩
  obtain ⟨fuel, hfuel⟩ : ∃ fuel, Client.unread c = fuel + 1 := by
    have := le_unread c hs
    rw [hc] at this
    simp only [singleConn, if_true, List.length_singleton] at this
    exact ⟨Client.unread c - 1, by omega⟩
  have hupd : Function.update (singleConn s [reply]) s .idle = fun _ => .idle := by
    funext t
    by_cases h : t = s
    · simp [h]
    · simp [singleConn, h]
  have hread : readOneResponse (c.io.conn s) c.io.result = .ok (rc, .idle, result) := by
    rw [hc]
    simpa [singleConn] using hlast
  have hresp := exec_memcachedResponse E c x hread
  simp only [Io.set, hc, hupd] at hresp
  have hread' : readableServer.exec E c x = (.ok (some s, c), x) := by
    simp [readableServer, Proc.exec_bind, hc, filter_singleConn hs]
  have hnone : (fetchLoop (fuel + 1) .notFound).exec E { c with io := ⟨fun _ => .idle, result⟩ } x =
      (.ok ((none, .notFound), { c with io := ⟨fun _ => .idle, result⟩ }), x) :=
    exec_fetchLoop_none E _ x (exec_readableServer_idle E _ x rfl)
  have hset : ({ c with io := ⟨fun _ => .idle, result⟩ } : Client).setConn s
      { Conn.idle with responseCount := 0 } = { c with io := ⟨fun _ => .idle, result⟩ } :=
    setConn_self _ s
  simp only [memcachedFetchResult, Proc.exec_bind, Proc.exec_get, hfuel,
    exec_fetchLoop_some E c x hread', fetchTurn, hresp]
  cases rc with
  | finished =>
    simp only [Proc.exec_bind, exec_modifyConn, hset]
    exact hnone
  | notFound => exact hnone
  | _ => rfl

end Single

/-- What `initialize_query` does to the client. -/
def Client.resetResult (c : Client) : Client := { c with io := { c.io with result := .reset } }

theorem exec_initializeQuery (E : Env Request Reply σ) (c : Client) (x : σ)
    (hcount : c.serverCount ≠ 0) :
    initializeQuery.exec E c x = (.ok (.success, Client.resetResult c), x) := by
  simp only [initializeQuery, Proc.exec_bind, Proc.exec_get, hcount, if_false, Proc.exec_modify,
    Proc.exec_pure]
  rfl

/-- `memcached_send` with an admitted key. -/
theorem exec_memcachedSendWith {E : Env Request Reply σ} (lrcSend : LrcSend) (c : Client) (x : σ)
    {s : Nat} (key : Key) (value : Block) (expiration flags : Nat) (hcount : c.serverCount ≠ 0)
    (hkey : memcachedKeyTest key = true) (hfail : c.nodeServer c.failNodeIndex = .ok s) :
    (memcachedSendWith lrcSend key value expiration flags).exec E c x =
      (if c.lrcMode then lrcSend s key value expiration flags
       else if c.isCore then do
        let core ← Proc.lift (c.instance c.networkCoreServerKey)
        memcachedSendBinary core key value expiration flags
       else memcachedSendBinary s key value expiration flags : Prog ReturnCode).exec E
        (Client.resetResult c) x := by
  have hfail' : (Client.resetResult c).nodeServer (Client.resetResult c).failNodeIndex = .ok s := hfail
  simp only [memcachedSendWith, Proc.exec_bind, exec_initializeQuery E c x hcount, ne_eq,
    not_true_eq_false, if_false, hkey, Proc.exec_get, hfail', Proc.exec_lift_ok]
  rfl

theorem exec_initializeQuery_none (E : Env Request Reply σ) (c : Client) (x : σ)
    (hcount : c.serverCount = 0) : initializeQuery.exec E c x = (.ok (.noServers, c), x) := by
  simp only [initializeQuery, Proc.exec_bind, Proc.exec_get, hcount, if_true, Proc.exec_pure]

section Errors

variable {E : Env Request Reply σ} {c : Client} {x : σ} {e : Fault}

/-- Without a server for `fail_node_index` nothing is sent. -/
theorem exec_memcachedSendWith_error (lrcSend : LrcSend) (key : Key) (value : Block) (expiration flags : Nat)
    (hcount : c.serverCount ≠ 0) (hkey : memcachedKeyTest key = true)
    (hfail : c.nodeServer c.failNodeIndex = .error e) :
    (memcachedSendWith lrcSend key value expiration flags).exec E c x = (.error e, x) := by
  have hfail' : (Client.resetResult c).nodeServer (Client.resetResult c).failNodeIndex = .error e := hfail
  simp only [memcachedSendWith, Proc.exec_bind, exec_initializeQuery E c x hcount, ne_eq,
    not_true_eq_false, if_false, hkey, Proc.exec_get, hfail', Proc.exec_lift_error]

/-- A get ends at the first key without a server. -/
theorem exec_mgetByKeyReal_error {key : Key} {keys : List Key} (mgetMode : Bool) (hcount : c.serverCount ≠ 0)
    (hs : Io.Synced c.serverCount c.io) (hkey : (key :: keys).all memcachedKeyTest = true)
    (hroute : routeKey c (keys.length + 1) key = .error e) :
    (mgetByKeyReal (key :: keys) mgetMode).exec E c x = (.error e, x) := by
  have hs' : Io.Synced (Client.resetResult c).serverCount (Client.resetResult c).io := ⟨hs.conn, hs.idle⟩
  obtain ⟨result, hd⟩ := drain_synced hs'
  have hroute' : routeKey { c with io := ⟨fun _ => .idle, result⟩ } (keys.length + 1) key = .error e := hroute
  simp only [mgetByKeyReal, simpleBinaryMget, Proc.exec_bind, exec_initializeQuery E c x hcount, ne_eq,
    not_true_eq_false, if_false, reduceCtorEq, hkey, Proc.exec_get, hd, Proc.exec_lift_ok, Proc.exec_modify,
    Proc.exec_each_cons, mgetKey, List.length_cons]
  rw [show ({ Client.resetResult c with io := ⟨fun _ => .idle, result⟩ } : Client) =
    { c with io := ⟨fun _ => .idle, result⟩ } from rfl, hroute']
  rfl

end Errors

section Exec

variable {E : Env Request Reply σ} (hE : Replying E) {c : Client} {x : σ}
include hE

/-- A set or a delete keeps the replies accounted for, and its status is that of the oldest
unread reply of its server. -/
theorem exec_vdo_response {s : Nat} {q : Request} (hq : Request.opcode q ≠ .getkq)
    (hs : Conn.Synced (c.io.conn s)) :
    ∃ rc conn result, (do memcachedVdo s q; memcachedResponse s : Prog ReturnCode).exec E c x =
        (.ok (rc, { c with io := { c.io.set s conn with result := result } }), (E.serve s q x).2) ∧
      Conn.Synced conn ∧
      readOneResponse ⟨[], (c.io.conn s).inbox ++ (E.serve s q x).1, (c.io.conn s).responseCount + 1⟩
        c.io.result = .ok (rc, conn, result) := by
  obtain ⟨reply, hr, hop⟩ := hE.one s q x hq
  have hs' : Conn.Synced ⟨[], (c.io.conn s).inbox ++ (E.serve s q x).1,
      (c.io.conn s).responseCount + 1⟩ := by
    refine ⟨rfl, ?_⟩
    rw [hr]
    exact settles_append hs.settles (not_quietHit hop hq)
  obtain ⟨rc, conn, result, hread, hsync, -⟩ := readOneResponse_synced hs' (by simp) c.io.result
  refine ⟨rc, conn, result, ?_, hsync, hread⟩
  have h := exec_memcachedResponse E
    (c.setConn s ⟨[], (c.io.conn s).inbox ++ (E.serve s q x).1, (c.io.conn s).responseCount + 1⟩)
    (E.serve s q x).2 (s := s) (by rw [setConn_conn_self]; exact hread)
  rw [Proc.exec_bind, exec_memcachedVdo E c x s q hs.sent]
  simpa [Client.setConn, Io.set] using h

theorem exec_memcachedSendBinary {s : Nat} (key : Key) (value : Block) (expiration flags : Nat)
    (hs : Io.Synced c.serverCount c.io) (hlt : s < c.serverCount) :
    ∃ rc io, (memcachedSendBinary s key value expiration flags).exec E c x =
        (.ok (rc, { c with io := io }), (E.serve s (.set key value flags expiration) x).2) ∧
      Io.Synced c.serverCount io := by
  obtain ⟨rc, conn, result, he, hsync, -⟩ :=
    exec_vdo_response hE (c := c) (x := x) (s := s) (q := .set key value flags expiration)
      (by simp [Request.opcode]) (hs.conn s)
  refine ⟨rc, _, he, ⟨fun t => ?_, fun t ht => ?_⟩⟩
  · by_cases h : t = s
    · subst h
      simpa [Io.set] using hsync
    · simpa [Io.set, h] using hs.conn t
  · have h : t ≠ s := by omega
    simpa [Io.set, h] using hs.idle t ht

/-- A single get returns what the server answers, and leaves no reply unread. -/
theorem exec_memcachedGetByKey {s : Nat} (key : Key) (hs : Io.Synced c.serverCount c.io)
    (hkey : memcachedKeyTest key = true) (hroute : routeKey c 1 key = .ok s) :
    ∃ old rc result, readOneResponse ⟨[], (E.serve s (.getk key) x).1, 1⟩ old = .ok (rc, .idle, result) ∧
      (memcachedGetByKey key).exec E c x = (.ok (lastFetch rc result,
        { c with io := ⟨fun _ => .idle, result⟩ }), (E.serve s (.getk key) x).2) := by
  have hlt := routeKey_lt hroute
  obtain ⟨reply, hr, hop⟩ := hE.one s (.getk key) x (by simp [Request.opcode])
  have hs' : Io.Synced c.serverCount { c.io with result := .reset } := ⟨hs.conn, hs.idle⟩
  obtain ⟨result, hd⟩ := drain_synced hs'
  have hd' : drain ({ c with io := { c.io with result := .reset } } : Client).serverCount
      { c.io with result := .reset } = .ok ⟨fun _ => .idle, result⟩ := hd
  have hk := exec_single_mgetKey E x (c := { c with io := ⟨fun _ => .idle, result⟩ })
    (fun _ => s) key false rfl hroute
  simp only [Bool.false_eq_true, if_false, hr] at hk
  obtain ⟨rc, result', hread, hf⟩ := exec_fetchResult_single E
    (({ c with io := ⟨fun _ => .idle, result⟩ } : Client).setConns (singleConn s [reply]))
    (E.serve s (.getk key) x).2 hlt rfl (not_quietHit hop (by simp [Request.opcode]))
  refine ⟨_, rc, result', by rw [hr]; exact hread, ?_⟩
  have hcount : c.serverCount ≠ 0 := by omega
  simp only [memcachedGetByKey, mgetByKeyReal, initializeQuery, simpleBinaryMget, Proc.exec_bind,
    Proc.exec_get, hcount, if_false, Proc.exec_modify, Proc.exec_pure, ne_eq, not_true_eq_false,
    List.cons_ne_nil, List.all_cons, hkey, List.all_nil, Bool.and_self, hd', Proc.exec_lift_ok,
    List.length_singleton, hk, Bool.false_eq_true]
  exact hf

/-- The environment after a block has gone through the core. -/
def coreState (E : Env Request Reply σ) (core : Nat) (key : Key) (value : Block) (x : σ) : σ :=
  (E.serve core (.getk key) (E.serve core (.set key value 0 86400) x).2).2

/-- Blocks went through the core, and nothing else happened. -/
inductive CoreOnly (E : Env Request Reply σ) (core : Nat) : σ → σ → Prop
  | refl (x : σ) : CoreOnly E core x x
  | step (key : Key) (value : Block) (x y : σ) (h : CoreOnly E core (coreState E core key value x) y) :
    CoreOnly E core x y

omit hE in
theorem CoreOnly.trans {core : Nat} {x y z : σ} (h : CoreOnly E core x y) (h' : CoreOnly E core y z) :
    CoreOnly E core x z := by
  induction h with
  | refl x => exact h'
  | step key value x y h ih => exact .step key value x z (ih h')

/-- A transfer through the core reads every reply that is on its way. -/
theorem exec_crossNetworkcore {s : Nat} (key : Key) (value : Block)
    (hs : Io.Synced c.serverCount c.io) (hfail : c.nodeServer c.failNodeIndex = .ok s)
    (hcore : c.networkCoreServerKey < c.serverCount) (hkey : memcachedKeyTest key = true) :
    ∃ result, (crossNetworkcore key value).exec E c x =
      (.ok ((), { c with isCore := false, io := ⟨fun _ => .idle, result⟩ }),
        coreState E c.networkCoreServerKey key value x) := by
  have hcount : c.serverCount ≠ 0 := by omega
  have hinst : c.instance c.networkCoreServerKey = .ok c.networkCoreServerKey := if_pos hcore
  obtain ⟨rc, io, hsend, hsync⟩ := exec_memcachedSendBinary hE (x := x)
    (c := { c with isCore := true, io := { c.io with result := .reset } }) (s := c.networkCoreServerKey)
    key value 86400 0 ⟨hs.conn, hs.idle⟩ hcore
  obtain ⟨_, _, result, -, hget⟩ := exec_memcachedGetByKey hE
    (x := (E.serve c.networkCoreServerKey (.set key value 0 86400) x).2)
    (c := { c with isCore := true, io := io }) (s := c.networkCoreServerKey) key hsync hkey (by
      simp only [routeKey, Client.lrcMode, Bool.not_true, Bool.and_false, Bool.false_eq_true, and_false,
        if_false, if_true]
      exact hinst)
  refine ⟨result, ?_⟩
  have hset : (memcachedSendWith (fun _ _ _ _ _ => Proc.fault .uninitialised) key value 86400 0).exec E
      { c with isCore := true } x = (.ok (rc, { c with isCore := true, io := io }),
        (E.serve c.networkCoreServerKey (.set key value 0 86400) x).2) := by
    rw [exec_memcachedSendWith _ { c with isCore := true } x key value 86400 0 hcount hkey hfail]
    simp only [Client.lrcMode, Client.resetResult, Bool.not_true, Bool.and_false, Bool.false_eq_true,
      if_false, if_true, Proc.exec_bind]
    rw [show ({ c with isCore := true } : Client).instance c.networkCoreServerKey =
      .ok c.networkCoreServerKey from hinst, Proc.exec_lift_ok]
    exact hsend
  simp only [crossNetworkcore, setIsCore, Proc.exec_bind, Proc.exec_modify, hset, hget]
  rfl

end Exec

end OptLrc.Core
