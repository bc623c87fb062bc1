import OptLrc.Statuses

namespace OptLrc.Created

open OptLrc.Galois OptLrc.Memory OptLrc.Jerasure OptLrc.Encoder OptLrc.Stripe OptLrc.Process
open OptLrc.Process.Proc OptLrc.Memcached OptLrc.Exchange OptLrc.Storage OptLrc.Retrieval OptLrc.Repair
open OptLrc.Sync OptLrc.Core OptLrc.Stored OptLrc.Writes OptLrc.Keeping OptLrc.Statuses

/-- `memcached_create`: what it does not set is whatever the memory held. -/
def memcachedCreate (memory : Client) : Client :=
  { memory with rackIsAdd := false, isCore := false, hosts := [], io := .idle,
                node2rack := Cells.new maxNodes, nodeRack := Cells.new maxNodes }

inductive Behavior
  | numberOfN
  | numberOfK
  | numberOfR
  | numberOfB
  | numberOfRack
  | encodingScheme

/-- `memcached_behavior_set` casts its `uint64_t` and checks nothing. -/
def memcachedBehaviorSet (c : Client) (data : Nat) : Behavior → Client
  | .numberOfN => { c with numberOfN := data % 2 ^ 32 }
  | .numberOfK => { c with numberOfK := data % 2 ^ 32 }
  | .numberOfR => { c with numberOfR := data % 2 ^ 32 }
  | .numberOfB => { c with numberOfB := data % 2 ^ 32 }
  | .numberOfRack => { c with numberOfRack := data % 2 ^ 32 }
  | .encodingScheme => { c with encodingScheme := data % 2 ^ 32 }

def memcachedServerAdd (c : Client) (host : Host) : Client := { c with hosts := c.hosts ++ [host] }

inductive Setup
  | server (host : Host)
  | behavior (flag : Behavior) (data : Nat)

def Setup.apply (c : Client) : Setup → Client
  | .server host => memcachedServerAdd c host
  | .behavior flag data => memcachedBehaviorSet c data flag

/-- A client after `memcached_create`, `memcached_server_add` and `memcached_behavior_set`. -/
def setUp (memory : Client) (steps : List Setup) : Client := steps.foldl Setup.apply (memcachedCreate memory)

/-- Calls in a row; the statuses go to the caller. -/
def callAll (V : CodingMatrix) (calls : List Call) : Prog Unit :=
  Proc.each (fun u => do let _ ← u.prog V) calls

variable {σ : Type} {E : Env Request Reply σ} {V : CodingMatrix} {c : Client} {x : σ}

/-- No call reads an entry that was never written, or past an array, or asks for a server that
there is not. -/
def IndexSafe (E : Env Request Reply σ) (V : CodingMatrix) (c : Client) (x : σ) (calls : List Call) : Prop :=
  ∀ e y, (callAll V calls).exec E c x = (.error e, y) → e ≠ .uninitialised ∧ e ≠ .outOfBounds

/-- The calls that return before they look for a server. -/
def Refused : Call → Prop
  | .set key _ _ _ => memcachedKeyTest key = false
  | .get key _ => 248 < key.length
  | .repair key _ _ => 248 < key.length
  | .delete key expiration _ => 248 < key.length ∨ expiration ≠ 0

/-- The index that a call is given is a block. -/
def Indexed (n : Nat) : Call → Prop
  | .repair _ _ p => p < n
  | .delete _ _ index => index < n
  | _ => True

theorem Indexed.repair {n : Nat} {u : Call} (h : Indexed n u) (key : Key) (valueLength p : Nat)
    (hu : u = .repair key valueLength p) : p < n := by
  subst hu
  exact h

/-- A client in LRC mode that has not loaded a placement. -/
structure Fresh (c : Client) : Prop where
  node2rack : c.node2rack = Cells.new maxNodes
  notCore : c.isCore = false
  idle : c.io.conn = fun _ => .idle

theorem fresh_setUp (memory : Client) (steps : List Setup) : Fresh (setUp memory steps) := by
  have hstep : ∀ c u, Fresh c → Fresh (Setup.apply c u) := by
    intro c u h
    cases u with
    | server host => exact ⟨h.node2rack, h.notCore, h.idle⟩
    | behavior flag data => cases flag <;> exact ⟨h.node2rack, h.notCore, h.idle⟩
  have hrun : ∀ c, Fresh c → Fresh (steps.foldl Setup.apply c) := by
    induction steps with
    | nil => exact fun c h => h
    | cons u steps ih => exact fun c h => ih (Setup.apply c u) (hstep c u h)
  exact hrun _ ⟨rfl, rfl, rfl⟩

theorem Fresh.synced (h : Fresh c) : Io.Synced c.serverCount c.io := by
  constructor
  · intro s
    rw [h.idle]
    exact synced_idle
  · intro s _
    rw [h.idle]

theorem Fresh.resetResult (h : Fresh c) : Fresh (Client.resetResult c) := ⟨h.node2rack, h.notCore, h.idle⟩

/-- An index that must not be used. -/
def Misused (e : Fault) : Prop := e = .uninitialised ∨ e = .outOfBounds

theorem Fresh.nodeServer (h : Fresh c) (i : Nat) : ∃ e, c.nodeServer i = .error e ∧ Misused e := by
  by_cases hi : i < maxNodes
  · refine ⟨.uninitialised, ?_, Or.inl rfl⟩
    simp [Client.nodeServer, h.node2rack, Cells.read, Cells.new, hi]
  · refine ⟨.outOfBounds, ?_, Or.inr rfl⟩
    simp [Client.nodeServer, h.node2rack, Cells.read, Cells.new, hi]

theorem Fresh.routeKey (h : Fresh c) (m : Nat) (key : Key) : ∃ e, routeKey c m key = .error e ∧ Misused e := by
  have hindex : ∃ e, (suffixIndex key >>= fun i => c.nodeServer i) = .error e ∧ Misused e := by
    cases hkey : suffixIndex key with
    | ok i => exact h.nodeServer i
    | error e =>
      refine ⟨e, rfl, ?_⟩
      unfold suffixIndex at hkey
      split at hkey
      · dsimp only at hkey
        split at hkey
        · cases hkey
          exact Or.inr rfl
        · cases hkey
      · cases hkey
        exact Or.inr rfl
  unfold Exchange.routeKey
  rw [h.notCore]
  simpa using hindex

/-- At most the last result was cleared. -/
def Kept (c c' : Client) : Prop := c' = c ∨ c' = Client.resetResult c

theorem Kept.io {c' : Client} (hk : Kept c c') (hs : Io.Synced c.serverCount c.io) :
    ∃ io, c' = { c with io := io } ∧ Io.Synced c.serverCount io := by
  rcases hk with rfl | rfl
  · exact ⟨_, rfl, hs⟩
  · exact ⟨_, rfl, hs.conn, hs.idle⟩

theorem Kept.fresh {c' : Client} (hk : Kept c c') (h : Fresh c) : Fresh c' := by
  rcases hk with rfl | rfl
  · exact h
  · exact h.resetResult

section Mget

variable {key : Key} {m : Nat} (pos : Nat → Nat) (hm : 0 < m)
include hm

theorem blockKeys_cons (key : Key) : ∃ key' keys, (List.range m).map (fun i => blockKey key (pos i)) = key' :: keys := by
  obtain ⟨m, rfl⟩ : ∃ m', m = m' + 1 := ⟨m - 1, by omega⟩
  rw [List.range_succ_eq_map]
  exact ⟨_, _, rfl⟩

theorem exec_mget_refused (hr : c.serverCount = 0 ∨ 248 < key.length) :
    ∃ rc c', (memcachedMget ((List.range m).map (fun i => blockKey key (pos i)))).exec E c x =
      (.ok (rc, c'), x) ∧ rc ≠ .success ∧ Kept c c' := by
  by_cases hcount : c.serverCount = 0
  · refine ⟨.noServers, c, ?_, by simp, Or.inl rfl⟩
    rw [memcachedMget, mgetByKeyReal, Proc.exec_bind_ok E c x (exec_initializeQuery_none E c x hcount)]
    rfl
  · obtain ⟨key', keys, hlist⟩ := blockKeys_cons pos hm key
    refine ⟨.badKeyProvided, _, exec_mget_badKey hcount (by simp [hlist]) ?_, by simp, Or.inr rfl⟩
    intro h
    have hmem : blockKey key (pos 0) ∈ (List.range m).map (fun i => blockKey key (pos i)) :=
      List.mem_map.mpr ⟨0, List.mem_range.mpr hm, rfl⟩
    have := (keyTest_blockKey_iff _).mp (List.all_eq_true.mp h _ hmem)
    have := hr.resolve_left hcount
    omega

theorem exec_mget_misused (h : Fresh c) (hcount : c.serverCount ≠ 0) (hkey : key.length ≤ 248) :
    ∃ e, (memcachedMget ((List.range m).map (fun i => blockKey key (pos i)))).exec E c x = (.error e, x) ∧
      Misused e := by
  obtain ⟨key', keys, hlist⟩ := blockKeys_cons pos hm key
  obtain ⟨e, hroute, he⟩ := h.routeKey (keys.length + 1) key'
  refine ⟨e, ?_, he⟩
  have hall : (key' :: keys).all memcachedKeyTest = true := by
    rw [← hlist, List.all_map, List.all_eq_true]
    intro i _
    exact keyTest_blockKey hkey _
  rw [hlist]
  exact exec_mgetByKeyReal_error true hcount h.synced hall hroute

end Mget

section Calls

variable (hmode : c.lrcMode = true)

theorem groupNumber_pos {n p : Nat} (r : Nat) (hp : p < n) :
    0 < if n < (r + 1) * (p / (r + 1) + 1) then n - p / (r + 1) * (r + 1) else r + 1 := by
  split
  · have := Nat.div_mul_le_self p (r + 1)
    omega
  · omega

theorem k_pos (hmode : c.lrcMode = true) : 0 < c.numberOfK := by
  simp only [Client.lrcMode, Bool.and_eq_true, decide_eq_true_eq] at hmode
  omega

theorem exec_repair_refused {key : Key} (valueLength : Nat) {p : Nat} (hp : p < c.numberOfN)
    (hr : c.serverCount = 0 ∨ 248 < key.length) :
    ∃ rc c', (memcachedRepair V key valueLength p).exec E c x = (.ok ((rc, none), c'), x) ∧ Kept c c' := by
  obtain ⟨rc, c', he, hrc, hkept⟩ := exec_mget_refused (E := E) (x := x)
    (fun i => i + p / (c.numberOfR + 1) * (c.numberOfR + 1)) (groupNumber_pos c.numberOfR hp) hr
  refine ⟨rc, c', ?_, hkept⟩
  simp only [memcachedRepair, rebuild, Proc.exec_bind, Proc.exec_get, he, hrc, if_false, Proc.exec_pure]

include hmode

/-- A refused call sends nothing. -/
theorem exec_refused {u : Call} (hu : ∀ key valueLength p, u = .repair key valueLength p → p < c.numberOfN) (hr : c.serverCount = 0 ∨ Refused u) :
    ∃ rc c', (u.prog V).exec E c x = (.ok (rc, c'), x) ∧ Kept c c' := by
  cases u with
  | set key value expiration flags =>
    by_cases hcount : c.serverCount = 0
    · refine ⟨.noServers, c, ?_, Or.inl rfl⟩
      rw [Call.prog, memcachedSet, memcachedSendWith, Proc.exec_bind_ok E c x (exec_initializeQuery_none E c x hcount)]
      rfl
    · have hkey : memcachedKeyTest key = false := hr.resolve_left hcount
      refine ⟨.badKeyProvided, _, ?_, Or.inr rfl⟩
      rw [Call.prog, memcachedSet, memcachedSendWith, Proc.exec_bind_ok E c x (exec_initializeQuery E c x hcount), hkey]
      rfl
  | get key valueLength =>
    obtain ⟨rc, c', he, hrc, hkept⟩ := exec_mget_refused (E := E) (x := x)
      (fun i => i + i / c.numberOfR) (k_pos hmode) hr
    refine ⟨rc, c', ?_, hkept⟩
    simp only [Call.prog, memcachedGet, memcachedGetLrc, Proc.exec_bind, Proc.exec_get, hmode, if_true, he, hrc,
      if_false, Proc.exec_pure]
  | repair key valueLength p =>
    obtain ⟨rc, c', he, hkept⟩ := exec_repair_refused (E := E) (V := V) (x := x) valueLength (hu key valueLength p rfl) hr
    exact ⟨rc, c', by rw [Call.prog, Proc.exec_bind_ok E c x he, Proc.exec_pure], hkept⟩
  | delete key expiration index =>
    by_cases hcount : c.serverCount = 0
    · refine ⟨.noServers, c, ?_, Or.inl rfl⟩
      rw [Call.prog, memcachedDeleteByKeyLrc, Proc.exec_bind_ok E c x (exec_initializeQuery_none E c x hcount)]
      rfl
    · by_cases hkey : memcachedKeyTest (blockKey key index) = true
      · have hlen := (keyTest_blockKey_iff index).mp hkey
        have hexp : expiration ≠ 0 := (hr.resolve_left hcount).resolve_left (by omega)
        refine ⟨.invalidArguments, _, ?_, Or.inr rfl⟩
        rw [Call.prog, memcachedDeleteByKeyLrc, Proc.exec_bind_ok E c x (exec_initializeQuery E c x hcount), hkey,
          if_neg (by simp), if_neg (by simp), if_pos hexp]
        rfl
      · refine ⟨.badKeyProvided, _, ?_, Or.inr rfl⟩
        rw [Call.prog, memcachedDeleteByKeyLrc, Proc.exec_bind_ok E c x (exec_initializeQuery E c x hcount),
          if_neg (by simp), if_pos (by simp [hkey])]
        rfl

/-- Any other call uses an entry of `node2rack` that was never written. -/
theorem exec_misused (h : Fresh c) {u : Call} (hu : Indexed c.numberOfN u) (hcount : c.serverCount ≠ 0)
    (hr : ¬ Refused u) : ∃ e, (u.prog V).exec E c x = (.error e, x) ∧ Misused e := by
  cases u with
  | set key value expiration flags =>
    obtain ⟨e, hserver, he⟩ := h.nodeServer c.failNodeIndex
    have hkey : memcachedKeyTest key = true := by simpa [Refused] using hr
    exact ⟨e, exec_memcachedSendWith_error _ key value expiration flags hcount hkey hserver, he⟩
  | get key valueLength =>
    obtain ⟨e, hget, he⟩ := exec_mget_misused (E := E) (x := x)
      (fun i => i + i / c.numberOfR) (k_pos hmode) h hcount (not_lt.mp hr)
    refine ⟨e, ?_, he⟩
    simp only [Call.prog, memcachedGet, memcachedGetLrc, Proc.exec_bind, Proc.exec_get, hmode, if_true, hget]
  | repair key valueLength p =>
    obtain ⟨e, hget, he⟩ := exec_mget_misused (E := E) (x := x)
      (fun i => i + p / (c.numberOfR + 1) * (c.numberOfR + 1)) (groupNumber_pos c.numberOfR hu) h hcount
      (not_lt.mp hr)
    refine ⟨e, ?_, he⟩
    simp only [Call.prog, memcachedRepair, rebuild, Proc.exec_bind, Proc.exec_get, hget]
  | delete key expiration index =>
    obtain ⟨e, hserver, he⟩ := h.resetResult.nodeServer index
    obtain ⟨hlen, hexp⟩ := not_or.mp hr
    refine ⟨e, ?_, he⟩
    rw [Call.prog, memcachedDeleteByKeyLrc, Proc.exec_bind_ok E c x (exec_initializeQuery E c x hcount),
      keyTest_blockKey (not_lt.mp hlen) index, if_neg (by simp), if_neg (by simp), if_neg hexp]
    simp only [Proc.exec_bind, Proc.exec_get, hserver, Proc.exec_lift_error]

end Calls

theorem Kept.serverCount {c' : Client} (hk : Kept c c') : c'.serverCount = c.serverCount := by
  rcases hk with rfl | rfl
  · rfl
  · rfl

theorem Kept.lrcMode {c' : Client} (hk : Kept c c') : c'.lrcMode = c.lrcMode := by
  rcases hk with rfl | rfl
  · rfl
  · rfl

theorem Kept.numberOfN {c' : Client} (hk : Kept c c') : c'.numberOfN = c.numberOfN := by
  rcases hk with rfl | rfl
  · rfl
  · rfl

/-- Calls on a client without a placement are safe as long as they are refused. -/
theorem Fresh.indexSafe_iff (h : Fresh c) (hmode : c.lrcMode = true) {calls : List Call}
    (hu : ∀ u ∈ calls, Indexed c.numberOfN u) :
    IndexSafe E V c x calls ↔ c.serverCount = 0 ∨ ∀ u ∈ calls, Refused u := by
  induction calls generalizing c with
  | nil =>
    refine ⟨fun _ => Or.inr (by simp), fun _ e y he => ?_⟩
    cases he
  | cons u calls ih =>
    have hu1 := hu u (by simp)
    have hrest : ∀ rc c', (u.prog V).exec E c x = (.ok (rc, c'), x) → Kept c c' →
        (IndexSafe E V c x (u :: calls) ↔ c.serverCount = 0 ∨ ∀ u ∈ calls, Refused u) := by
      intro rc c' he hk
      have hstep : (callAll V (u :: calls)).exec E c x = (callAll V calls).exec E c' x := by
        rw [callAll, Proc.exec_each_cons, Proc.exec_bind, Proc.exec_bind, he]
        rfl
      rw [IndexSafe, hstep, ← hk.serverCount]
      exact ih (hk.fresh h) (hk.lrcMode.trans hmode) (fun u hu' => by
        rw [hk.numberOfN]
        exact hu u (by simp [hu']))
    by_cases hr : c.serverCount = 0 ∨ Refused u
    · obtain ⟨rc, c', he, hk⟩ := exec_refused (V := V) (E := E) (x := x) hmode hu1.repair hr
      rw [hrest rc c' he hk]
      simp only [List.mem_cons, forall_eq_or_imp]
      tauto
    · obtain ⟨hcount, hr⟩ := not_or.mp hr
      obtain ⟨e, he, hmis⟩ := exec_misused (V := V) (E := E) (x := x) hmode h hu1 hcount hr
      constructor
      · intro hsafe
        have hne := hsafe e x (by rw [callAll, Proc.exec_each_cons, Proc.exec_bind, Proc.exec_bind, he])
        exact absurd hmis (not_or.mpr hne)
      · rintro (h0 | hall)
        · exact absurd h0 hcount
        · exact absurd (hall u (by simp)) hr

/-- Five blocks of three data blocks in groups of two, on six servers. -/
def fiveSteps : List Setup :=
  [.behavior .numberOfN 5, .behavior .numberOfK 3, .behavior .numberOfR 2, .behavior .numberOfB 1] ++
    (List.range 6).map (fun i => .server ⟨[], i⟩)

end OptLrc.Created
