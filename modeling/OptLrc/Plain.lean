import OptLrc.Framed
import OptLrc.Stored

namespace OptLrc.Plain

open OptLrc.Galois OptLrc.Memory OptLrc.Jerasure OptLrc.Encoder OptLrc.Process OptLrc.Process.Proc
open OptLrc.Memcached OptLrc.Exchange OptLrc.Storage OptLrc.Retrieval OptLrc.Sync OptLrc.Wire OptLrc.Core
open OptLrc.Framed OptLrc.Stored

/-- `hashkit_one_at_a_time`, the hash of a new client. A `char` is signed. -/
def oneAtATime (key : Key) : BitVec 32 :=
  let value := key.foldl (fun (value : BitVec 32) b =>
    let value := value + BitVec.signExtend 32 b
    let value := value + value <<< 10
    value ^^^ (value >>> 6)) 0
  let value := value + value <<< 3
  let value := value ^^^ (value >>> 11)
  value + value <<< 15

/-- `memcached_generate_hash_with_redistribution` with the options of a new client. -/
def generateHash (count : Nat) (key : Key) : Nat :=
  if count = 1 then 0 else (oneAtATime key).toNat % count

/-- `memcached_delete_by_key`, over the server that the hash of the client gives a key. -/
def memcachedDeleteByKey (hash : Key → Nat) (key : Key) (expiration : Nat) : Prog ReturnCode := do
  let rc ← initializeQuery
  if rc ≠ .success then return rc
  else if ¬ memcachedKeyTest key then return .badKeyProvided
  else if expiration ≠ 0 then return .invalidArguments
  else
    let c ← Proc.get
    let s ← Proc.lift (c.instance (hash key))
    memcachedVdo s (.delete key)
    memcachedResponse s

inductive PlainCall
  | set (key : Key) (value : Block) (expiration flags : Nat)
  | get (key : Key)
  | delete (key : Key) (expiration : Nat)

def PlainCall.prog (V : CodingMatrix) (hash : Key → Nat) : PlainCall → Prog Unit
  | .set key value expiration flags => do
    let _ ← memcachedSet V key value expiration flags
  | .get key => do
    let _ ← memcachedGet V key 0
  | .delete key expiration => do
    let _ ← memcachedDeleteByKey hash key expiration

/-- The server that a get reads a key from, outside of the code. -/
def readServer (c : Client) (key : Key) : Except Fault Nat := suffixIndex key >>= c.nodeServer

/-- The client without the code, with every reply on its way accounted for. -/
structure Quiet (d c : Client) : Prop where
  within : Within d c
  synced : Io.Synced c.serverCount c.io

variable {σ : Type} {E : Env Request Reply σ} {view : σ → World} {V : CodingMatrix} {hash : Key → Nat}
  {c d : Client} {x : σ} {s : Nat} {key : Key}

/-- One server has the key: a set stores the item there, the get after it returns it, and the
delete after it removes it there. -/
def Agrees (E : Env Request Reply σ) (view : σ → World) (V : CodingMatrix) (hash : Key → Nat) (c : Client)
    (x : σ) (key : Key) : Prop :=
  ∃ s, ∀ value expiration flags, (memcachedSet V key value expiration flags).Ok E c x (fun _ c' y =>
    view y = (view x).put s key (some ⟨value, flags, expiration⟩) ∧
    (∀ length, (memcachedGet V key length).Ok E c' y (fun result _ _ =>
      result = ⟨some (value.map some), value.length, .success, some flags⟩)) ∧
    (memcachedDeleteByKey hash key 0).Ok E c' y (fun _ _ z => view z = (view y).put s key none))

section Exec

variable (hE : Replying E) (hmode : c.lrcMode = false) (hcore : c.isCore = false)
  (hs : Io.Synced c.serverCount c.io) (hkey : memcachedKeyTest key = true)
include hE hs hkey

include hmode hcore in
theorem exec_plain_set (hfail : c.nodeServer c.failNodeIndex = .ok s) (value : Block) (expiration flags : Nat) :
    ∃ rc io, (memcachedSet V key value expiration flags).exec E c x = (.ok (rc, { c with io := io }),
      (E.serve s (.set key value flags expiration) x).2) ∧ Io.Synced c.serverCount io := by
  have hlt := nodeServer_lt hfail
  rw [memcachedSet, exec_memcachedSendWith _ c x key value expiration flags (by omega) hkey hfail]
  rw [if_neg (by rw [hmode]; exact Bool.false_ne_true), if_neg (by rw [hcore]; exact Bool.false_ne_true)]
  exact exec_memcachedSendBinary hE (c := Client.resetResult c) key value expiration flags ⟨hs.conn, hs.idle⟩ hlt

include hmode hcore in
theorem exec_plain_get (hread : readServer c key = .ok s) (length : Nat) :
    ∃ old rc result, readOneResponse ⟨[], (E.serve s (.getk key) x).1, 1⟩ old = .ok (rc, .idle, result) ∧
      (memcachedGet V key length).exec E c x = (.ok (match lastFetch rc result with
        | (some result, rc) => ⟨some (result.value.map some), result.value.length, rc, some result.itemFlags⟩
        | (none, rc) => ⟨none, 0, rc, some 0⟩, { c with io := ⟨fun _ => .idle, result⟩ }),
        (E.serve s (.getk key) x).2) := by
  have hroute : routeKey c 1 key = .ok s := by
    simp only [routeKey, lt_irrefl, false_and, if_false, hcore, Bool.false_eq_true]
    exact hread
  obtain ⟨old, rc, result, hlast, he⟩ := exec_memcachedGetByKey hE (x := x) key hs hkey hroute
  refine ⟨old, rc, result, hlast, ?_⟩
  simp only [memcachedGet, Proc.exec_bind, Proc.exec_get, hmode, Bool.false_eq_true, if_false, he]
  generalize lastFetch rc result = r
  obtain ⟨result, rc⟩ := r
  cases result with
  | none => rfl
  | some result => rfl

theorem exec_plain_delete (hlt : hash key < c.serverCount) :
    ∃ rc io, (memcachedDeleteByKey hash key 0).exec E c x = (.ok (rc, { c with io := io }),
      (E.serve (hash key) (.delete key) x).2) ∧ Io.Synced c.serverCount io := by
  have hinst : (Client.resetResult c).instance (hash key) = .ok (hash key) := if_pos hlt
  obtain ⟨rc, conn, result, he, hsync, -⟩ := exec_vdo_response hE (c := Client.resetResult c) (x := x)
    (s := hash key) (q := .delete key) (by simp [Request.opcode]) (hs.conn _)
  refine ⟨rc, { (Client.resetResult c).io.set (hash key) conn with result := result }, ?_, ?_⟩
  · simp only [memcachedDeleteByKey, Proc.exec_bind, exec_initializeQuery E c x (by omega), ne_eq,
      not_true_eq_false, if_false, hkey, Proc.exec_get, hinst, Proc.exec_lift_ok]
    rw [Proc.exec_bind] at he
    exact he
  · refine ⟨fun t => ?_, fun t ht => ?_⟩
    · by_cases h : t = hash key
      · subst h
        simpa [Io.set] using hsync
      · simpa [Io.set, h, Client.resetResult] using hs.conn t
    · have h : t ≠ hash key := by omega
      simpa [Io.set, h, Client.resetResult] using hs.idle t ht

end Exec

section Errors

variable {e : Fault} (hcount : c.serverCount ≠ 0) (hkey : memcachedKeyTest key = true)
include hcount hkey

theorem exec_plain_get_error (hmode : c.lrcMode = false) (hcore : c.isCore = false)
    (hs : Io.Synced c.serverCount c.io) (hread : readServer c key = .error e) (length : Nat) :
    (memcachedGet V key length).exec E c x = (.error e, x) := by
  have hroute : routeKey c (([] : List Key).length + 1) key = .error e := by
    simp only [routeKey, List.length_nil, zero_add, lt_irrefl, false_and, if_false, hcore, Bool.false_eq_true]
    exact hread
  have he : (memcachedGetByKey key).exec E c x = (.error e, x) := by
    apply Proc.exec_bind_error
    exact exec_mgetByKeyReal_error false hcount hs (by simp [hkey]) hroute
  simp only [memcachedGet, Proc.exec_bind, Proc.exec_get, hmode, Bool.false_eq_true, if_false, he]

theorem exec_plain_delete_error (hlt : ¬ hash key < c.serverCount) :
    (memcachedDeleteByKey hash key 0).exec E c x = (.error .outOfBounds, x) := by
  have hinst : (Client.resetResult c).instance (hash key) = .error .outOfBounds := if_neg hlt
  simp only [memcachedDeleteByKey, Proc.exec_bind, exec_initializeQuery E c x hcount, ne_eq,
    not_true_eq_false, if_false, hkey, Proc.exec_get, hinst, Proc.exec_lift_error]

end Errors

section Calls

variable (hE : Replying E)
include hE

theorem quiet_set (hmode : d.lrcMode = false) (hcore : d.isCore = false) (value : Block) (expiration flags : Nat) :
    Triple E (Quiet d) (memcachedSet V key value expiration flags) (fun _ => Quiet d) := by
  rintro c x rc c' y ⟨⟨io, rfl⟩, hs⟩ he
  by_cases hcount : ({ d with io := io } : Client).serverCount = 0
  · simp only [memcachedSet, memcachedSendWith, Proc.exec_bind, exec_initializeQuery_none E _ x hcount] at he
    cases he
    exact ⟨⟨_, rfl⟩, hs⟩
  by_cases hkey : memcachedKeyTest key = true
  · cases hfail : ({ d with io := io } : Client).nodeServer d.failNodeIndex with
    | error e =>
      rw [memcachedSet, exec_memcachedSendWith_error _ key value expiration flags hcount hkey hfail] at he
      cases he
    | ok s =>
      obtain ⟨rc', io', he', hs'⟩ := exec_plain_set (V := V) (x := x) hE (c := { d with io := io }) hmode hcore hs
        hkey hfail value expiration flags
      rw [he'] at he
      cases he
      exact ⟨⟨_, rfl⟩, hs'⟩
  · simp only [memcachedSet, memcachedSendWith, Proc.exec_bind, exec_initializeQuery E _ x hcount, hkey] at he
    cases he
    exact ⟨⟨_, rfl⟩, hs.conn, hs.idle⟩

theorem quiet_get (hmode : d.lrcMode = false) (hcore : d.isCore = false) (length : Nat) :
    Triple E (Quiet d) (memcachedGet V key length) (fun _ => Quiet d) := by
  rintro c x rc c' y ⟨⟨io, rfl⟩, hs⟩ he
  have hmode' : ({ d with io := io } : Client).lrcMode = false := hmode
  by_cases hcount : ({ d with io := io } : Client).serverCount = 0
  · simp only [memcachedGet, memcachedGetByKey, mgetByKeyReal, Proc.exec_bind, Proc.exec_get, hmode',
      Bool.false_eq_true, if_false, exec_initializeQuery_none E _ x hcount] at he
    cases he
    exact ⟨⟨_, rfl⟩, hs⟩
  by_cases hkey : memcachedKeyTest key = true
  · cases hread : readServer { d with io := io } key with
    | error e =>
      rw [exec_plain_get_error hcount hkey hmode' hcore hs hread] at he
      cases he
    | ok s =>
      obtain ⟨old, rc', result, -, he'⟩ := exec_plain_get (V := V) (x := x) hE hmode' hcore hs hkey hread length
      rw [he'] at he
      cases he
      exact ⟨⟨_, rfl⟩, fun _ => synced_idle, fun _ _ => rfl⟩
  · simp only [memcachedGet, memcachedGetByKey, mgetByKeyReal, Proc.exec_bind, Proc.exec_get, hmode',
      Bool.false_eq_true, if_false, exec_initializeQuery E _ x hcount, List.all_cons, hkey] at he
    cases he
    exact ⟨⟨_, rfl⟩, hs.conn, hs.idle⟩

theorem quiet_delete (expiration : Nat) :
    Triple E (Quiet d) (memcachedDeleteByKey hash key expiration) (fun _ => Quiet d) := by
  rintro c x rc c' y ⟨⟨io, rfl⟩, hs⟩ he
  by_cases hcount : ({ d with io := io } : Client).serverCount = 0
  · simp only [memcachedDeleteByKey, Proc.exec_bind, exec_initializeQuery_none E _ x hcount] at he
    cases he
    exact ⟨⟨_, rfl⟩, hs⟩
  by_cases hkey : memcachedKeyTest key = true
  · by_cases hexp : expiration = 0
    · subst hexp
      by_cases hlt : hash key < ({ d with io := io } : Client).serverCount
      · obtain ⟨rc', io', he', hs'⟩ := exec_plain_delete (x := x) hE hs hkey hlt
        rw [he'] at he
        cases he
        exact ⟨⟨_, rfl⟩, hs'⟩
      · rw [exec_plain_delete_error hcount hkey hlt] at he
        cases he
    · simp only [memcachedDeleteByKey, Proc.exec_bind, exec_initializeQuery E _ x hcount, hkey] at he
      rw [if_neg (by simp), if_neg (by simp), if_pos hexp] at he
      cases he
      exact ⟨⟨_, rfl⟩, hs.conn, hs.idle⟩
  · simp only [memcachedDeleteByKey, Proc.exec_bind, exec_initializeQuery E _ x hcount, hkey] at he
    cases he
    exact ⟨⟨_, rfl⟩, hs.conn, hs.idle⟩

/-- Calls outside of the code change only the connections, and account for every reply. -/
theorem quiet_calls (hmode : d.lrcMode = false) (hcore : d.isCore = false) (calls : List PlainCall) :
    Triple E (Quiet d) (Proc.each (PlainCall.prog V hash) calls) (fun _ => Quiet d) := by
  refine Triple.each (fun u _ => ?_)
  cases u with
  | set key value expiration flags =>
    exact (quiet_set hE hmode hcore value expiration flags).bind (fun _ => triple_pure (fun _ h => h))
  | get key => exact (quiet_get hE hmode hcore 0).bind (fun _ => triple_pure (fun _ h => h))
  | delete key expiration => exact (quiet_delete hE expiration).bind (fun _ => triple_pure (fun _ h => h))

end Calls

section Routing

/-- A value that a server does not hold. -/
theorem exists_fresh (item : Option Item) : ∃ value, ∀ a ∈ item, a.value ≠ value := by
  cases item with
  | none => exact ⟨[], by simp⟩
  | some a => exact ⟨0 :: a.value, by simp⟩

variable (hE : Storing E view) (hmode : c.lrcMode = false) (hcore : c.isCore = false)
  (hs : Io.Synced c.serverCount c.io) (hkey : memcachedKeyTest key = true)
include hE hmode hcore hs hkey

theorem set_routed {value : Block} {expiration flags : Nat} (hfresh : ∀ a ∈ view x s key, a.value ≠ value)
    (h : (memcachedSet V key value expiration flags).Ok E c x (fun _ _ y =>
      view y = (view x).put s key (some ⟨value, flags, expiration⟩))) :
    c.nodeServer c.failNodeIndex = .ok s := by
  obtain ⟨rc, c', y, he, hput⟩ := h
  by_cases hcount : c.serverCount = 0
  · simp only [memcachedSet, memcachedSendWith, Proc.exec_bind, exec_initializeQuery_none E _ x hcount] at he
    cases he
    have hat := congrFun (congrFun hput s) key
    rw [put_self] at hat
    exact absurd rfl (hfresh _ hat)
  cases hfail : c.nodeServer c.failNodeIndex with
  | error e =>
    rw [memcachedSet, exec_memcachedSendWith_error _ key value expiration flags hcount hkey hfail] at he
    cases he
  | ok t =>
    obtain ⟨rc', io, he', -⟩ := exec_plain_set (V := V) (x := x) (Storing.replying hE) hmode hcore hs hkey hfail value
      expiration flags
    rw [he'] at he
    cases he
    rw [hE.stores] at hput
    have hat := congrFun (congrFun hput s) key
    by_cases hst : s = t
    · rw [hst]
    · simp only [put_self, serve, put_of_ne (fun h => hst h.1)] at hat
      exact absurd rfl (hfresh _ hat)

/-- A get returns the item of the server that it reads. -/
theorem exec_get_storing (hread : readServer c key = .ok s) (length : Nat) :
    (memcachedGet V key length).Ok E c x (fun result _ _ => result = match view x s key with
      | some item => ⟨some (item.value.map some), item.value.length, .success, some item.flags⟩
      | none => ⟨none, 0, .notFound, some 0⟩) := by
  obtain ⟨old, rc, result, hlast, he⟩ := exec_plain_get (V := V) (x := x) (Storing.replying hE) hmode hcore hs hkey hread
    length
  refine ⟨_, _, _, he, ?_⟩
  rw [hE.replies] at hlast
  cases hitem : view x s key with
  | none =>
    simp only [serve, hitem] at hlast
    cases hlast
    rfl
  | some item =>
    simp only [serve, hitem] at hlast
    cases hlast
    rfl

theorem get_routed {value : Block} {flags length : Nat}
    (hother : ∀ t ≠ s, readServer c key = .ok t → ∀ a ∈ view x t key, a.value ≠ value) (hcount : c.serverCount ≠ 0)
    (h : (memcachedGet V key length).Ok E c x (fun result _ _ =>
      result = ⟨some (value.map some), value.length, .success, some flags⟩)) : readServer c key = .ok s := by
  obtain ⟨result, c', y, he, hresult⟩ := h
  cases hread : readServer c key with
  | error e =>
    rw [exec_plain_get_error hcount hkey hmode hcore hs hread] at he
    cases he
  | ok t =>
    by_cases hst : t = s
    · rw [hst]
    · obtain ⟨result', c'', y', he', hitem⟩ := exec_get_storing hE (V := V) (x := x) hmode hcore hs hkey hread length
      rw [he'] at he
      cases he
      rw [hresult] at hitem
      cases hview : view x t key with
      | none =>
        rw [hview] at hitem
        cases hitem
      | some item =>
        rw [hview] at hitem
        have hvalue := List.map_injective_iff.mpr (Option.some_injective _) (Option.some.inj (GetResult.mk.inj hitem).1)
        exact absurd hvalue.symm (hother t hst hread item hview)

omit hmode hcore in
theorem delete_routed {item : Item} (hitem : view x s key = some item) (hcount : c.serverCount ≠ 0)
    (h : (memcachedDeleteByKey hash key 0).Ok E c x (fun _ _ z => view z = (view x).put s key none)) :
    hash key = s := by
  obtain ⟨rc, c', z, he, hput⟩ := h
  by_cases hlt : hash key < c.serverCount
  · obtain ⟨rc', io, he', -⟩ := exec_plain_delete (x := x) (Storing.replying hE) hs hkey hlt
    rw [he'] at he
    cases he
    by_contra hne
    have hat := congrFun (congrFun hput s) key
    rw [hE.stores, put_self, serve] at hat
    cases hview : view x (hash key) key with
    | none =>
      rw [hview] at hat
      exact absurd (hitem.symm.trans hat) (by simp)
    | some item' =>
      rw [hview] at hat
      simp only [put_of_ne (fun h => hne h.1.symm), hitem, reduceCtorEq] at hat
  · rw [exec_plain_delete_error hcount hkey hlt] at he
    cases he

omit hmode hcore in
theorem exec_delete_storing (hhash : hash key = s) (hlt : s < c.serverCount) {item : Item}
    (hitem : view x s key = some item) :
    (memcachedDeleteByKey hash key 0).Ok E c x (fun _ _ z => view z = (view x).put s key none) := by
  subst hhash
  obtain ⟨rc, io, he, -⟩ := exec_plain_delete (x := x) (Storing.replying hE) hs hkey hlt
  refine ⟨_, _, _, he, ?_⟩
  simp only [hE.stores, serve, hitem]

/-- The three operations agree on a key when the digits at its end, `fail_node_index` and the
hash give one server. -/
theorem agrees_iff : Agrees E view V hash c x key ↔
    c.nodeServer c.failNodeIndex = .ok (hash key) ∧ readServer c key = .ok (hash key) := by
  constructor
  · rintro ⟨s, h⟩
    obtain ⟨value, hfresh⟩ := exists_fresh (view x s key)
    have hfail : c.nodeServer c.failNodeIndex = .ok s :=
      set_routed hE hmode hcore hs hkey hfresh ((h value 0 0).mono (fun _ _ _ h => h.1))
    have hcount : c.serverCount ≠ 0 := by
      have := nodeServer_lt hfail
      omega
    obtain ⟨value, hother⟩ : ∃ value, ∀ t, readServer c key = .ok t → ∀ a ∈ view x t key, a.value ≠ value := by
      cases hread : readServer c key with
      | error e => exact ⟨[], by simp⟩
      | ok t =>
        obtain ⟨value, hfresh⟩ := exists_fresh (view x t key)
        refine ⟨value, fun t' ht => ?_⟩
        cases ht
        exact hfresh
    obtain ⟨rc, io, he, hs'⟩ := exec_plain_set (V := V) (x := x) (Storing.replying hE) hmode hcore hs hkey hfail
      value 0 0
    obtain ⟨rc', c', y, he', hview, hget, hdelete⟩ := h value 0 0
    rw [he] at he'
    cases he'
    have hread : readServer { c with io := io } key = .ok s := by
      refine get_routed hE (c := { c with io := io }) hmode hcore hs' hkey (fun t ht hread => ?_) hcount (hget 0)
      rw [hview, put_of_ne (fun h => ht h.1)]
      exact hother t hread
    have hitem : view (E.serve s (.set key value 0 0) x).2 s key = some ⟨value, 0, 0⟩ := by
      rw [hview, put_self]
    have hhash : hash key = s := delete_routed hE (c := { c with io := io }) hs' hkey hitem hcount hdelete
    rw [hhash]
    exact ⟨hfail, hread⟩
  · rintro ⟨hfail, hread⟩
    refine ⟨hash key, fun value expiration flags => ?_⟩
    obtain ⟨rc, io, he, hs'⟩ := exec_plain_set (V := V) (x := x) (Storing.replying hE) hmode hcore hs hkey hfail
      value expiration flags
    have hview : view (E.serve (hash key) (.set key value flags expiration) x).2 =
        (view x).put (hash key) key (some ⟨value, flags, expiration⟩) := by
      rw [hE.stores]
      rfl
    have hitem : view (E.serve (hash key) (.set key value flags expiration) x).2 (hash key) key =
        some ⟨value, flags, expiration⟩ := by
      rw [hview, put_self]
    refine ⟨rc, _, _, he, hview, fun length => ?_, ?_⟩
    · have hget := exec_get_storing hE (V := V) (c := { c with io := io }) hmode hcore hs' hkey hread length
        (x := (E.serve (hash key) (.set key value flags expiration) x).2)
      rw [hitem] at hget
      exact hget
    · exact exec_delete_storing hE (c := { c with io := io }) hs' hkey rfl (nodeServer_lt hfail) hitem

end Routing

/-- In every state that calls outside of the code lead to, the server that a set writes a key to is
the one that a get reads and a delete clears exactly when `node2rack` has the server of the hash
both at `fail_node_index` and at the digits at the end of the key. -/
theorem agrees_after_calls_iff (hE : Storing E view) (hmode : c.lrcMode = false) (hcore : c.isCore = false)
    (hs : Io.Synced c.serverCount c.io) (calls : List PlainCall) {c' : Client} {y : σ}
    (hrun : (Proc.each (PlainCall.prog V hash) calls).exec E c x = (.ok ((), c'), y))
    (hkey : memcachedKeyTest key = true) :
    Agrees E view V hash c' y key ↔
      c.nodeServer c.failNodeIndex = .ok (hash key) ∧ readServer c key = .ok (hash key) := by
  obtain ⟨⟨io, rfl⟩, hs'⟩ := quiet_calls (Storing.replying hE) hmode hcore calls c x () c' y
    ⟨within_refl c, hs⟩ hrun
  exact agrees_iff hE (c := { c with io := io }) hmode hcore hs' hkey

/-- Two servers for blocks and the core, with the code switched off. -/
def plainClient (fail : Nat) : Client := { sampleClient 2 1 1 with numberOfB := 0, failNodeIndex := fail }

/-- The key `a01`. -/
def secondKey : Key := [Byte.ofNat 97, Byte.ofNat 48, Byte.ofNat 49]

theorem agrees_after_set : ∃ c' y, (Proc.each (PlainCall.prog (fun _ _ _ _ => 1) (generateHash 3))
    [.set secondKey [7] 0 0]).exec storingEnv (plainClient 1) (fun _ _ => none) = (.ok ((), c'), y) ∧
      Agrees storingEnv id (fun _ _ _ _ => 1) (generateHash 3) c' y secondKey := by
  have hok : ((Proc.each (PlainCall.prog (fun _ _ _ _ => 1) (generateHash 3)) [.set secondKey [7] 0 0]).exec
      storingEnv (plainClient 1) (fun _ _ => none)).1.toOption.isSome = true := by decide +kernel
  cases hex : (Proc.each (PlainCall.prog (fun _ _ _ _ => 1) (generateHash 3)) [.set secondKey [7] 0 0]).exec
      storingEnv (plainClient 1) (fun _ _ => none) with
  | mk res y =>
    rw [hex] at hok
    cases res with
    | error e => cases hok
    | ok r =>
      refine ⟨r.2, y, rfl, ?_⟩
      exact (agrees_after_calls_iff storing_storingEnv (c := plainClient 1) (by decide) rfl
        (synced_sampleClient 2 1 1) _ hex (by decide)).mpr (by decide +kernel)

/-- A set sends `a01` to the server of `fail_node_index`, and a get asks the second one. -/
theorem not_agrees_first : (plainClient 0).lrcMode = false ∧ (plainClient 0).isCore = false ∧
    memcachedKeyTest secondKey = true ∧ ¬ ∃ V hash,
      Agrees storingEnv id V hash (plainClient 0) (fun _ _ => none) secondKey := by
  refine ⟨by decide, rfl, by decide, ?_⟩
  rintro ⟨V, hash, h⟩
  obtain ⟨hset, hget⟩ := (agrees_iff storing_storingEnv (c := plainClient 0) (by decide) rfl
    (synced_sampleClient 2 1 1) (by decide)).mp h
  have hset' : (plainClient 0).nodeServer 0 = .ok 0 := by decide
  have hget' : readServer (plainClient 0) secondKey = .ok 1 := by decide
  have h0 : hash secondKey = 0 := Except.ok.inj (hset.symm.trans hset')
  have h1 : hash secondKey = 1 := Except.ok.inj (hget.symm.trans hget')
  omega

end OptLrc.Plain
