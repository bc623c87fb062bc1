import OptLrc.Sync

namespace OptLrc.Wire

open OptLrc.Galois OptLrc.Memory OptLrc.Jerasure OptLrc.Encoder OptLrc.Process OptLrc.Memcached
open OptLrc.Exchange OptLrc.Sync

variable {σ : Type} (E : Env Request Reply σ) (c : Client) (x : σ)

@[simp] theorem setConn_conn_self (s : Nat) (conn : Conn) : (c.setConn s conn).io.conn s = conn := by
  simp [Client.setConn, Io.set]

@[simp] theorem setConn_setConn (s : Nat) (conn conn' : Conn) :
    (c.setConn s conn).setConn s conn' = c.setConn s conn' := by
  simp [Client.setConn, Io.set]

@[simp] theorem setConns_conn (f : Nat → Conn) : (c.setConns f).io.conn = f := rfl

@[simp] theorem setConns_serverCount (f : Nat → Conn) :
    (c.setConns f).serverCount = c.serverCount := rfl

@[simp] theorem setConns_setConns (f g : Nat → Conn) : (c.setConns f).setConns g = c.setConns g := rfl

theorem setConn_self (s : Nat) : c.setConn s (c.io.conn s) = c := by
  simp [Client.setConn, Io.set]

@[simp] theorem exec_modifyConn (s : Nat) (f : Conn → Conn) :
    (modifyConn s f).exec E c x = (.ok ((), c.setConn s (f (c.io.conn s))), x) := rfl

theorem exec_transmit (s : Nat) (q : Request) :
    (transmit s q).exec E c x =
      (.ok ((), c.setConn s { c.io.conn s with inbox := (c.io.conn s).inbox ++ (E.serve s q x).1 }),
        (E.serve s q x).2) := by
  simp only [transmit, Proc.exec_bind, Proc.exec_send, exec_modifyConn]

theorem exec_each_transmit (s : Nat) (qs : List Request) :
    (Proc.each (transmit s) qs).exec E c x =
      (.ok ((), c.setConn s { c.io.conn s with
        inbox := (c.io.conn s).inbox ++ (E.exchange s qs x).1 }), (E.exchange s qs x).2) := by
  induction qs generalizing c x with
  | nil => rw [Proc.exec_each_nil, Env.exchange, List.append_nil, setConn_self]
  | cons q qs ih =>
    rw [Proc.exec_each_cons, Proc.exec_bind, exec_transmit]
    simp [ih, Env.exchange]

theorem exec_ioWritev_flush (s : Nat) (q : Request) :
    (ioWritev s q true).exec E c x =
      (.ok ((), c.setConn s { c.io.conn s with
        writeBuffer := []
        inbox := (c.io.conn s).inbox ++ (E.exchange s ((c.io.conn s).writeBuffer ++ [q]) x).1 }),
        (E.exchange s ((c.io.conn s).writeBuffer ++ [q]) x).2) := by
  simp only [ioWritev, Proc.exec_bind, Proc.exec_get, if_true, exec_modifyConn, exec_each_transmit,
    setConn_conn_self, setConn_setConn]

theorem exec_ioWritev (s : Nat) (q : Request) :
    (ioWritev s q false).exec E c x =
      (.ok ((), c.setConn s { c.io.conn s with writeBuffer := (c.io.conn s).writeBuffer ++ [q] }), x) := by
  simp only [ioWritev, Proc.exec_bind, Proc.exec_get, Bool.false_eq_true, if_false, exec_modifyConn]

/-- A request and its replies, on a connection with nothing left to send. -/
theorem exec_memcachedVdo (s : Nat) (q : Request) (hw : (c.io.conn s).writeBuffer = []) :
    (memcachedVdo s q).exec E c x =
      (.ok ((), c.setConn s ⟨[], (c.io.conn s).inbox ++ (E.serve s q x).1,
        (c.io.conn s).responseCount + 1⟩), (E.serve s q x).2) := by
  simp [memcachedVdo, Proc.exec_bind, exec_ioWritev_flush, hw, Env.exchange]

theorem exec_memcachedResponse {s : Nat} {rc : ReturnCode} {conn : Conn} {result : Result}
    (h : readOneResponse (c.io.conn s) c.io.result = .ok (rc, conn, result)) :
    (memcachedResponse s).exec E c x =
      (.ok (rc, { c with io := { c.io.set s conn with result := result } }), x) := by
  simp only [memcachedResponse, Proc.exec_bind, Proc.exec_get, h, Proc.exec_lift_ok, Proc.exec_modify,
    Proc.exec_pure]

theorem exec_fetchLoop_none {fuel : Nat} {error : ReturnCode}
    (h : readableServer.exec E c x = (.ok (none, c), x)) :
    (fetchLoop (fuel + 1) error).exec E c x = (.ok ((none, error), c), x) := by
  rw [fetchLoop, Proc.exec_bind_ok E c x h]
  rfl

theorem exec_fetchLoop_some {fuel s : Nat} {error : ReturnCode} {y : σ}
    (h : readableServer.exec E c x = (.ok (some s, c), y)) :
    (fetchLoop (fuel + 1) error).exec E c x = (fetchTurn (fetchLoop fuel .notFound) s).exec E c y := by
  rw [fetchLoop, Proc.exec_bind_ok E c x h]

/-- The environment after the closing no-operations to the servers below `count`. -/
def noopState (conn : Nat → Conn) (x : σ) : Nat → σ
  | 0 => x
  | count + 1 =>
    if (conn count).responseCount ≠ 0 then
      (E.exchange count ((conn count).writeBuffer ++ [.noop]) (noopState conn x count)).2
    else noopState conn x count

def noopConn (conn : Nat → Conn) (x : σ) (s : Nat) : Conn :=
  if (conn s).responseCount ≠ 0 then
    ⟨[], (conn s).inbox ++ (E.exchange s ((conn s).writeBuffer ++ [.noop]) (noopState E conn x s)).1,
      (conn s).responseCount⟩
  else conn s

theorem exec_each_mgetNoop (count : Nat) :
    (Proc.each mgetNoop (List.range count)).exec E c x =
      (.ok ((), c.setConns (fun s => if s < count then noopConn E c.io.conn x s else c.io.conn s)),
        noopState E c.io.conn x count) := by
  induction count with
  | zero => simp [noopState, Client.setConns]
  | succ count ih =>
    rw [List.range_succ, Proc.exec_each_append E c x _ ih, Proc.exec_each_cons, Proc.exec_bind, mgetNoop,
      Proc.exec_bind, Proc.exec_get]
    simp only [Client.setConns, lt_irrefl, if_false]
    have hext : ∀ conn : Conn, conn = noopConn E c.io.conn x count →
        (fun s => if s < count + 1 then noopConn E c.io.conn x s else c.io.conn s) =
          Function.update (fun s => if s < count then noopConn E c.io.conn x s else c.io.conn s)
            count conn := by
      rintro conn rfl
      funext s
      by_cases hs : s = count
      · simp [hs]
      · have : s < count + 1 ↔ s < count := by omega
        simp only [Function.update_of_ne hs, this]
    by_cases h0 : (c.io.conn count).responseCount = 0
    · rw [hext (c.io.conn count) (by simp [noopConn, h0])]
      have hself : Function.update (fun s => if s < count then noopConn E c.io.conn x s else c.io.conn s)
          count (c.io.conn count) =
          fun s => if s < count then noopConn E c.io.conn x s else c.io.conn s := by
        rw [Function.update_eq_self_iff]
        simp
      rw [hself]
      simp [h0, noopState]
    · rw [hext _ rfl]
      simp [h0, exec_ioWritev_flush, noopState, noopConn, Client.setConn, Io.set]

/-- The quiet gets of a multi-get that go to server `s`. -/
def quiet (route : Key → Nat) (keys : List Key) (s : Nat) : List Request :=
  (keys.filter (fun key => route key = s)).map .getkq

/-- The connections after the key loop, when the requests still wait to be sent. -/
def keyConn (route : Key → Nat) (keys : List Key) (s : Nat) : Conn :=
  if s ∈ keys.map route then ⟨quiet route keys s, [], 1⟩ else .idle

/-- The environment after a multi-get has served the servers below `count`. -/
def mgetState (route : Key → Nat) (keys : List Key) (x : σ) : Nat → σ
  | 0 => x
  | count + 1 =>
    if count ∈ keys.map route then
      (E.exchange count (quiet route keys count ++ [.noop]) (mgetState route keys x count)).2
    else mgetState route keys x count

/-- The connections after a multi-get. -/
def mgetConn (route : Key → Nat) (keys : List Key) (x : σ) (s : Nat) : Conn :=
  if s ∈ keys.map route then
    ⟨[], (E.exchange s (quiet route keys s ++ [.noop]) (mgetState E route keys x s)).1, 1⟩
  else .idle

theorem quiet_append (route : Key → Nat) (keys : List Key) (key : Key) (s : Nat) :
    quiet route (keys ++ [key]) s = quiet route keys s ++ if route key = s then [.getkq key] else [] := by
  unfold quiet
  by_cases h : route key = s <;> simp [h]

theorem quiet_eq_nil {route : Key → Nat} {keys : List Key} {s : Nat} (h : s ∉ keys.map route) :
    quiet route keys s = [] := by
  unfold quiet
  rw [List.map_eq_nil_iff, List.filter_eq_nil_iff]
  intro key hkey hs
  exact h (List.mem_map.mpr ⟨key, hkey, by simpa using hs⟩)

section Mget

variable {c} {route : Key → Nat} {keys : List Key}

theorem exec_each_mgetKey {m : Nat} (hm : m ≠ 1) (hidle : c.io.conn = fun _ => .idle)
    (hroute : ∀ key ∈ keys, routeKey c m key = .ok (route key)) :
    (Proc.each (mgetKey m true) keys).exec E c x =
      (.ok ((), c.setConns (keyConn route keys)), x) := by
  induction keys using List.reverseRecOn with
  | nil =>
    rw [Proc.exec_each_nil, show keyConn route [] = c.io.conn by rw [hidle]; rfl]
    rfl
  | append_singleton keys key ih =>
    have ih := ih (fun key' h => hroute key' (by simp [h]))
    have hr : routeKey (c.setConns (keyConn route keys)) m key = .ok (route key) :=
      hroute key (by simp)
    rw [Proc.exec_each_append E c x _ ih, Proc.exec_each_cons, Proc.exec_bind, mgetKey]
    simp only [Proc.exec_bind, Proc.exec_get, hr, Proc.exec_lift_ok, hm, decide_false, if_true,
      exec_ioWritev, exec_modifyConn, Proc.exec_each_nil, setConn_conn_self, setConn_setConn]
    simp only [Client.setConn, Client.setConns, Io.set]
    congr 6
    funext s
    by_cases hs : s = route key
    · subst hs
      by_cases hmem : route key ∈ keys.map route
      · simp [keyConn, hmem, quiet_append]
      · simp [keyConn, hmem, quiet_append, quiet_eq_nil hmem, Conn.idle]
    · rw [Function.update_of_ne hs]
      simp [keyConn, quiet_append, Ne.symm hs, hs]

theorem instance_lt {s t : Nat} (h : c.instance s = .ok t) : t < c.serverCount ∧ t = s := by
  unfold Client.instance at h
  split at h
  · next hlt =>
    cases h
    exact ⟨hlt, rfl⟩
  · cases h

theorem nodeServer_lt {i s : Nat} (h : c.nodeServer i = .ok s) : s < c.serverCount := by
  unfold Client.nodeServer at h
  cases hr : c.node2rack.read i with
  | error e => rw [hr] at h; cases h
  | ok t =>
    rw [hr, ok_bind] at h
    exact (instance_lt h).1

theorem routeKey_lt {m s : Nat} {key : Key} (h : routeKey c m key = .ok s) : s < c.serverCount := by
  have hnode : ∀ e : Except Fault Nat, (e >>= fun i => c.nodeServer i) = .ok s → s < c.serverCount := by
    intro e he
    cases e with
    | error e => cases he
    | ok i => exact nodeServer_lt he
  unfold routeKey at h
  split at h
  · exact hnode _ h
  · split at h
    · exact (instance_lt h).1
    · exact hnode _ h

theorem noopState_keyConn (count : Nat) :
    noopState E (keyConn route keys) x count = mgetState E route keys x count := by
  induction count with
  | zero => rfl
  | succ count ih =>
    by_cases h : count ∈ keys.map route <;> simp [noopState, mgetState, keyConn, ih, h, Conn.idle]

theorem noopConn_keyConn (s : Nat) :
    noopConn E (keyConn route keys) x s = mgetConn E route keys x s := by
  unfold noopConn mgetConn
  rw [noopState_keyConn]
  by_cases h : s ∈ keys.map route <;> simp [keyConn, h, Conn.idle]

/-- The connections when the only request was sent at once. -/
def singleConn (s : Nat) (replies : List Reply) (t : Nat) : Conn :=
  if t = s then ⟨[], replies, 1⟩ else .idle

theorem noopState_singleConn (s : Nat) (replies : List Reply) (y : σ) (count : Nat) :
    noopState E (singleConn s replies) y count =
      if count ≤ s then y else (E.exchange s [.noop] y).2 := by
  induction count with
  | zero => simp [noopState]
  | succ count ih =>
    by_cases h : count = s
    · subst h
      simp [noopState, singleConn, ih]
    · have h1 : count + 1 ≤ s ↔ count ≤ s := by omega
      simp [noopState, singleConn, ih, h, h1, Conn.idle]

theorem mgetState_single (key : Key) (count : Nat) :
    mgetState E route [key] x count = if count ≤ route key then x
      else (E.exchange (route key) [.getkq key, .noop] x).2 := by
  induction count with
  | zero => simp [mgetState]
  | succ count ih =>
    by_cases h : count = route key
    · subst h
      simp [mgetState, ih, quiet]
    · have h1 : count + 1 ≤ route key ↔ count ≤ route key := by omega
      simp [mgetState, ih, h, h1]

theorem exec_single_mgetKey (route : Key → Nat) (key : Key) (mode : Bool) (hidle : c.io.conn = fun _ => .idle)
    (hroute : routeKey c 1 key = .ok (route key)) :
    (Proc.each (mgetKey 1 mode) [key]).exec E c x =
      (.ok ((), c.setConns (singleConn (route key)
        (E.serve (route key) (if mode then .getkq key else .getk key) x).1)),
        (E.serve (route key) (if mode then .getkq key else .getk key) x).2) := by
  rw [Proc.exec_each_cons, mgetKey]
  simp only [Proc.exec_bind, Proc.exec_get, hroute, Proc.exec_lift_ok, decide_true,
    exec_ioWritev_flush, exec_modifyConn, Proc.exec_each_nil, setConn_conn_self, setConn_setConn,
    hidle, Conn.idle, List.nil_append, Env.exchange, List.append_nil]
  simp only [Client.setConn, Client.setConns, Io.set, hidle]
  congr 6
  funext s
  by_cases hs : s = route key
  · subst hs
    simp [singleConn]
  · simp [singleConn, hs, Conn.idle]

theorem exec_simpleBinaryMget (hidle : c.io.conn = fun _ => .idle)
    (hroute : ∀ key ∈ keys, routeKey c keys.length key = .ok (route key)) :
    (simpleBinaryMget keys true).exec E c x =
      (.ok (.success, c.setConns (mgetConn E route keys x)),
        mgetState E route keys x c.serverCount) := by
  have hbound : ∀ s, ¬ s < c.serverCount → s ∉ keys.map route := by
    intro s hs hmem
    obtain ⟨key, hkey, rfl⟩ := List.mem_map.mp hmem
    exact hs (routeKey_lt (hroute key hkey))
  by_cases hone : keys.length = 1
  · obtain ⟨key, rfl⟩ := List.length_eq_one_iff.mp hone
    have hlt := routeKey_lt (hroute key (by simp))
    simp only [simpleBinaryMget, Proc.exec_bind, List.length_singleton, if_true,
      exec_single_mgetKey E x route key true hidle (hroute key (by simp)), Proc.exec_get,
      exec_each_mgetNoop, Proc.exec_pure, setConns_conn, setConns_serverCount, setConns_setConns]
    rw [noopState_singleConn, mgetState_single, if_neg (by omega), if_neg (by omega)]
    refine Prod.ext (congrArg Except.ok (Prod.ext rfl (congrArg c.setConns (funext fun s => ?_)))) rfl
    by_cases hs : s = route key
    · subst hs
      simp [hlt, noopConn, singleConn, noopState_singleConn, mgetConn, quiet, mgetState_single,
        Env.exchange]
    · by_cases hs' : s < c.serverCount <;>
        simp [hs, hs', noopConn, singleConn, mgetConn, Conn.idle]
  · simp only [simpleBinaryMget, Proc.exec_bind, if_true, exec_each_mgetKey E x hone hidle hroute,
      Proc.exec_get, exec_each_mgetNoop, Proc.exec_pure, setConns_conn, setConns_serverCount,
      setConns_setConns, noopState_keyConn, noopConn_keyConn]
    refine Prod.ext (congrArg Except.ok (Prod.ext rfl (congrArg c.setConns (funext fun s => ?_)))) rfl
    by_cases hs : s < c.serverCount
    · simp only [hs, if_true]
    · simp [hs, keyConn, mgetConn, hbound s hs]

/-- A multi-get on a client whose replies are all accounted for. -/
theorem exec_memcachedMget (hs : Io.Synced c.serverCount c.io) (hne : keys ≠ [])
    (hkey : ∀ key ∈ keys, memcachedKeyTest key = true)
    (hroute : ∀ key ∈ keys, routeKey c keys.length key = .ok (route key)) :
    ∃ result, (memcachedMget keys).exec E c x =
      (.ok (.success, { c with io := ⟨mgetConn E route keys x, result⟩ }),
        mgetState E route keys x c.serverCount) := by
  have hcount : c.serverCount ≠ 0 := by
    obtain ⟨key, hmem⟩ := List.exists_mem_of_ne_nil keys hne
    have := routeKey_lt (hroute key hmem)
    omega
  have hs' : Io.Synced c.serverCount { c.io with result := .reset } := ⟨hs.conn, hs.idle⟩
  obtain ⟨result, hd⟩ := drain_synced hs'
  refine ⟨result, ?_⟩
  have hall : keys.all memcachedKeyTest = true := List.all_eq_true.mpr hkey
  have hm := exec_simpleBinaryMget E x (c := { c with io := ⟨fun _ => .idle, result⟩ }) rfl hroute
  have hd' : drain ({ c with io := { c.io with result := .reset } } : Client).serverCount
      { c.io with result := .reset } = .ok ⟨fun _ => .idle, result⟩ := hd
  simp only [memcachedMget, mgetByKeyReal, initializeQuery, Proc.exec_bind, Proc.exec_get, hcount,
    if_false, Proc.exec_modify, Proc.exec_pure, ne_eq, not_true_eq_false, hne, hall, hd',
    Proc.exec_lift_ok, hm]
  rfl

end Mget

end OptLrc.Wire
