import OptLrc.Keeping

namespace OptLrc.Statuses

open OptLrc.Galois OptLrc.Memory OptLrc.Jerasure OptLrc.Encoder OptLrc.Stripe OptLrc.Process
open OptLrc.Process.Proc OptLrc.Memcached OptLrc.Exchange OptLrc.Storage OptLrc.Retrieval OptLrc.Repair
open OptLrc.Sync OptLrc.Wire OptLrc.Core OptLrc.Fetch OptLrc.Stored OptLrc.Writes OptLrc.Updates
open OptLrc.Runs OptLrc.Keeping

/-- The calls of the client in LRC mode. -/
inductive Call
  | set (key : Key) (value : Block) (expiration flags : Nat)
  | get (key : Key) (valueLength : Nat)
  | repair (key : Key) (valueLength p : Nat)
  | delete (key : Key) (expiration index : Nat)

/-- A call, and the status that it reports. -/
def Call.prog (V : CodingMatrix) : Call → Prog ReturnCode
  | .set key value expiration flags => memcachedSet V key value expiration flags
  | .get key valueLength => do
    let result ← memcachedGet V key valueLength
    return result.error
  | .repair key valueLength p => do
    let result ← memcachedRepair V key valueLength p
    return result.1
  | .delete key expiration index => memcachedDeleteByKeyLrc key expiration index

/-- A request that a server has answered. -/
structure Event where
  server : Nat
  request : Request
  replies : List Reply
  deriving DecidableEq

variable {σ : Type}

/-- The environment keeps what the servers were asked and what they answered. -/
structure Recording (E : Env Request Reply σ) (events : σ → List Event) : Prop where
  serve : ∀ s q x, events (E.serve s q x).2 = events x ++ [⟨s, q, (E.serve s q x).1⟩]
  pick : ∀ s t rest x, events (E.pick s t rest x).2 = events x

/-- The server answered the request with a success. -/
def Accepted (events : List Event) (s : Nat) (q : Request) : Prop :=
  ∃ reply, ⟨s, q, [reply]⟩ ∈ events ∧ reply.status = .success

/-- The status of a call is that of its own requests. -/
def Call.Right (V : CodingMatrix) (place : Nat → Nat) (c : Client) (events : List Event) (rc : ReturnCode) :
    Call → Prop
  | .set key value expiration flags => rc = .success → ∀ i < c.numberOfN,
    Accepted events (place i) (storeRequest V c key value expiration flags i)
  | .delete key _ index => rc = .success → ∃ s, c.nodeServer index = .ok s ∧
    Accepted events s (.delete (blockKey key index))
  | _ => True

/-- The first block on the server of `fail_node_index`. -/
def observed (place : Nat → Nat) (c : Client) : Option Nat :=
  (List.range c.numberOfN).find? (fun i => place i = place c.failNodeIndex)

/-- A reply that a later call would take for its own success. -/
def Misleading (reply : Reply) : Prop := reply.status = .success ∧ reply.opcode ≠ .noop

/-- The calls that the code gets right: a set of a key whose block keys pass the key test, of a
value that reaches its last block, whose writes are all accepted unless the one that it looks
at is refused; a delete whose server has no success left unread, or accepts it. -/
def Call.Safe (V : CodingMatrix) (place : Nat → Nat) (c : Client) (events : List Event) : Call → Prop
  | .set key value expiration flags => memcachedKeyTest key = false ∨
    key.length ≤ 248 ∧ Splits c.numberOfK value ∧
      ((∀ i < c.numberOfN, Accepted events (place i) (storeRequest V c key value expiration flags i)) ∨
        ∃ i, observed place c = some i ∧
          ¬ Accepted events (place i) (storeRequest V c key value expiration flags i))
  | .get _ _ => True
  | .repair _ _ p => p < c.numberOfN
  | .delete key _ index => ∀ s, c.nodeServer index = .ok s →
    (∀ reply ∈ (c.io.conn s).inbox.head?, ¬ Misleading reply) ∨
      Accepted events s (.delete (blockKey key index))

/-- A property of every call of a run that returns. -/
def Throughout (E : Env Request Reply σ) (V : CodingMatrix)
    (P : Client → σ → ReturnCode → σ → Call → Prop) : Client → σ → List Call → Prop
  | _, _, [] => True
  | c, x, u :: us => ∀ rc c' y, (u.prog V).exec E c x = (.ok (rc, c'), y) →
    P c x rc y u ∧ Throughout E V P c' y us

/-- The events of a call. -/
def between (events : σ → List Event) (x y : σ) : List Event := (events y).drop (events x).length

section Events

variable {E : Env Request Reply σ} {events : σ → List Event} (hrec : Recording E events)
include hrec

theorem events_coreState (core : Nat) (key : Key) (value : Block) (x : σ) :
    ∃ l, events (coreState E core key value x) = events x ++ l := by
  rw [coreState, hrec.serve, hrec.serve, List.append_assoc]
  exact ⟨_, rfl⟩

theorem events_transferState (core : Nat) (key : Key) (block : Nat → Block) (l : List Nat) (x : σ) :
    ∃ l', events (transferState E core key block l x) = events x ++ l' := by
  induction l generalizing x with
  | nil => exact ⟨[], by simp [transferState]⟩
  | cons i l ih =>
    obtain ⟨l1, h1⟩ := events_coreState hrec core (blockKey key i) (block i) x
    obtain ⟨l2, h2⟩ := ih (coreState E core (blockKey key i) (block i) x)
    exact ⟨l1 ++ l2, by rw [transferState, h2, h1, List.append_assoc]⟩

theorem events_scatterState (place : Nat → Nat) (q : Nat → Request) (x : σ) (m : Nat) :
    events (scatterState E place q x m) = events x ++
      (List.range m).map (fun i => ⟨place i, q i, scatterReplies E place q x i⟩) := by
  induction m with
  | zero => simp [scatterState]
  | succ m ih =>
    rw [scatterState, hrec.serve, ih, List.range_succ, List.map_append, List.append_assoc]
    rfl

end Events

/-- A success that was read is a reply that says so. -/
theorem readOneResponse_success {conn conn' : Conn} {result result' : Result}
    (h : readOneResponse conn result = .ok (.success, conn', result')) :
    ∃ reply rest, conn.inbox = reply :: rest ∧ Misleading reply := by
  obtain ⟨wb, inbox, count⟩ := conn
  cases inbox with
  | nil => cases h
  | cons reply rest =>
    refine ⟨reply, rest, rfl, ?_⟩
    obtain ⟨opcode, status, key, flags, value⟩ := reply
    cases status with
    | success =>
      cases opcode with
      | noop => cases h
      | _ => exact ⟨rfl, by simp⟩
    | _ => cases h

section Step

variable {E : Env Request Reply σ} {events : σ → List Event} {V : CodingMatrix} {c₀ c c' : Client} {x y : σ}
  {place : Nat → Nat} {rc : ReturnCode} (hE : Replying E) (hrec : Recording E events)
include hE hrec

omit hrec in
/-- The status of a set is that of the first block on the server of `fail_node_index`. -/
theorem accepted_observed {key : Key} {value : Block} {expiration flags : Nat}
    (hstatus : StoreStatus E V c place key value expiration flags y .success) :
    ∃ i, observed place c = some i ∧ Accepted ((List.range c.numberOfN).map (fun i =>
      ⟨place i, storeRequest V c key value expiration flags i,
        scatterReplies E place (storeRequest V c key value expiration flags) y i⟩)) (place i)
          (storeRequest V c key value expiration flags i) := by
  obtain ⟨result, conn, result', hread⟩ := hstatus
  obtain ⟨reply, rest, hinbox, hok, -⟩ := readOneResponse_success hread
  have hfind : observed place c = ((List.range c.numberOfN).filter
      (fun i => place i = place c.failNodeIndex)).head? := by
    rw [observed, List.head?_filter]
  cases hfilter : (List.range c.numberOfN).filter (fun i => place i = place c.failNodeIndex) with
  | nil => simp [scatterConn, hfilter] at hinbox
  | cons i l =>
    obtain ⟨reply', hr, -⟩ := hE.one (place i) (storeRequest V c key value expiration flags i)
      (scatterState E place (storeRequest V c key value expiration flags) y i)
      (by simp [storeRequest, Request.opcode])
    have hr' : scatterReplies E place (storeRequest V c key value expiration flags) y i = [reply'] := hr
    have hmem : i ∈ (List.range c.numberOfN).filter (fun i => place i = place c.failNodeIndex) := by
      rw [hfilter]
      simp
    simp only [scatterConn, hfilter, List.flatMap_cons, hr', List.singleton_append, List.cons.injEq] at hinbox
    refine ⟨i, by rw [hfind, hfilter]; rfl, reply', ?_, by rw [hinbox.1]; exact hok⟩
    rw [← hr']
    exact List.mem_map.mpr ⟨i, (List.mem_filter.mp hmem).1, rfl⟩

theorem set_right (hV : FirstRowOnes V) (h : Ready c₀ place c) {key : Key} {value : Block}
    {expiration flags : Nat}
    (hex : (memcachedSet V key value expiration flags).exec E c x = (.ok (rc, c'), y))
    (hsafe : Call.Safe V place c (between events x y) (.set key value expiration flags)) :
    Call.Right V place c (between events x y) rc (.set key value expiration flags) ∧ Ready c₀ place c' := by
  rcases hsafe with hkey | ⟨hkey, hval, hok⟩
  · simp only [memcachedSet, memcachedSendWith, Proc.exec_bind, exec_initializeQuery E c x h.serverCount_ne,
      ne_eq, not_true_eq_false, if_false, hkey, Bool.false_eq_true, not_false_eq_true, if_true,
      Proc.exec_pure] at hex
    cases hex
    exact ⟨fun hrc => absurd hrc (by decide), h.reset⟩
  · by_cases hpos : 0 < key.length
    · obtain ⟨l, z, rc', io, -, hz, hset, hs, hstatus⟩ := exec_memcachedSet (x := x) hE hV h.placed h.synced hpos hkey
        hval expiration flags
      rw [hset] at hex
      cases hex
      refine ⟨fun hrc => ?_, h.io hs⟩
      subst hrc
      obtain ⟨l', hl'⟩ := events_transferState hrec c.networkCoreServerKey key
        (fullBlock V c.numberOfN c.numberOfK c.numberOfR value) l x
      obtain ⟨i, hi, reply, hmem, hreply⟩ := accepted_observed hE hstatus
      have hlog : between events x (scatterState E place (storeRequest V c key value expiration flags) z
          c.numberOfN) = l' ++ (List.range c.numberOfN).map (fun i =>
            ⟨place i, storeRequest V c key value expiration flags i,
              scatterReplies E place (storeRequest V c key value expiration flags) z i⟩) := by
        rw [between, events_scatterState hrec, hz, hl', List.append_assoc, List.drop_left]
      rcases hok with hall | ⟨i', hi', hnot⟩
      · exact hall
      · rw [hi] at hi'
        cases hi'
        refine absurd ⟨reply, ?_, hreply⟩ hnot
        rw [hlog]
        exact List.mem_append_right _ hmem
    · have htest : memcachedKeyTest key = false := by simp [memcachedKeyTest, hpos]
      simp only [memcachedSet, memcachedSendWith, Proc.exec_bind, exec_initializeQuery E c x h.serverCount_ne,
        ne_eq, not_true_eq_false, if_false, htest, Bool.false_eq_true, not_false_eq_true, if_true,
        Proc.exec_pure] at hex
      cases hex
      exact ⟨fun hrc => absurd hrc (by decide), h.reset⟩

theorem delete_right (h : Ready c₀ place c) {key : Key} {expiration index : Nat}
    (hex : (memcachedDeleteByKeyLrc key expiration index).exec E c x = (.ok (rc, c'), y))
    (hsafe : Call.Safe V place c (between events x y) (.delete key expiration index)) :
    Call.Right V place c (between events x y) rc (.delete key expiration index) ∧ Ready c₀ place c' := by
  simp only [memcachedDeleteByKeyLrc, Proc.exec_bind, exec_initializeQuery E c x h.serverCount_ne, ne_eq,
    not_true_eq_false, if_false] at hex
  by_cases hkey : memcachedKeyTest (blockKey key index) = true
  · by_cases h0 : expiration = 0
    · simp only [hkey, not_true_eq_false, if_false, h0, Proc.exec_bind, Proc.exec_get] at hex
      cases hnode : c.nodeServer index with
      | error e =>
        have hnode' : (Client.resetResult c).nodeServer index = .error e := hnode
        simp only [hnode', Proc.exec_lift_error] at hex
        cases hex
      | ok s =>
        have hnode' : (Client.resetResult c).nodeServer index = .ok s := hnode
        obtain ⟨rc', conn, result, hdel, hsync, hread⟩ := exec_vdo_response hE (c := Client.resetResult c) (x := x)
          (s := s) (q := .delete (blockKey key index)) (by simp [Request.opcode]) (h.reset.synced.conn s)
        simp only [hnode', Proc.exec_lift_ok] at hex
        rw [← Proc.exec_bind, hdel] at hex
        cases hex
        refine ⟨fun hrc => ⟨s, hnode, ?_⟩, h.reset.io (synced_set h.reset.synced hsync (nodeServer_lt hnode) result)⟩
        subst hrc
        obtain ⟨reply, rest, hinbox, hmis⟩ := readOneResponse_success hread
        obtain ⟨own, hown, -⟩ := hE.one s (.delete (blockKey key index)) x (by simp [Request.opcode])
        rcases hsafe s hnode with hhead | hacc
        · cases hq : (c.io.conn s).inbox with
          | nil =>
            have hq' : ((Client.resetResult c).io.conn s).inbox = [] := hq
            simp only [hq', List.nil_append, hown, List.cons.injEq] at hinbox
            refine ⟨own, ?_, by rw [hinbox.1]; exact hmis.1⟩
            rw [between, hrec.serve, List.drop_left, hown]
            simp
          | cons first q =>
            have hq' : ((Client.resetResult c).io.conn s).inbox = first :: q := hq
            simp only [hq', List.cons_append, List.cons.injEq] at hinbox
            exact absurd hmis (by rw [← hinbox.1]; exact hhead first (by simp [hq]))
        · exact hacc
    · simp only [hkey, not_true_eq_false, if_false, h0, not_false_eq_true, if_true, Proc.exec_pure] at hex
      cases hex
      exact ⟨fun hrc => absurd hrc (by decide), h.reset⟩
  · simp only [hkey, Bool.false_eq_true, not_false_eq_true, if_true, Proc.exec_pure] at hex
    cases hex
    exact ⟨fun hrc => absurd hrc (by decide), h.reset⟩

theorem call_right (hV : FirstRowOnes V) (h : Ready c₀ place c) {u : Call}
    (hex : (u.prog V).exec E c x = (.ok (rc, c'), y)) (hsafe : u.Safe V place c (between events x y)) :
    u.Right V place c (between events x y) rc ∧ Ready c₀ place c' := by
  cases u with
  | set key value expiration flags => exact set_right hE hrec hV h hex hsafe
  | delete key expiration index => exact delete_right hE hrec h hex hsafe
  | get key valueLength =>
    refine ⟨trivial, ?_⟩
    exact ((triple_memcachedGet hE key valueLength).bind (R := fun _ => Ready c₀ place)
      (fun _ => triple_pure (fun _ h => h))) c x rc c' y h hex
  | repair key valueLength p =>
    refine ⟨trivial, ?_⟩
    obtain ⟨f, b, io, hc⟩ := h.code.exists
    have hp : p < c₀.numberOfN := by
      have : p < c.numberOfN := hsafe
      rwa [hc] at this
    exact ((triple_memcachedRepair hE key valueLength hp).bind (R := fun _ => Ready c₀ place)
      (fun _ => triple_pure (fun _ h => h))) c x rc c' y h hex

end Step

section Run

variable {E : Env Request Reply σ} {events : σ → List Event} {V : CodingMatrix} {c : Client} {x : σ}
  {place : Nat → Nat}

end Run

/-- Servers that store what they are sent, but for some that refuse every write and every delete. -/
def refusingServe (refused : List Nat) (s : Nat) (q : Request) (w : World) : List Reply × World :=
  if s ∈ refused ∧ (Request.opcode q = .set ∨ Request.opcode q = .delete) then
    ([.failed (Request.opcode q) .notStored], w)
  else serve s q w

def refusingEnv (refused : List Nat) : Env Request Reply (World × List Event) where
  serve s q x := ((refusingServe refused s q x.1).1, ((refusingServe refused s q x.1).2,
    x.2 ++ [⟨s, q, (refusingServe refused s q x.1).1⟩]))
  pick s _ _ x := (s, x)
  pick_mem s t rest x := by simp

theorem recording_refusingEnv (refused : List Nat) : Recording (refusingEnv refused) Prod.snd :=
  ⟨fun _ _ _ => rfl, fun _ _ _ _ => rfl⟩

theorem replying_refusingEnv (refused : List Nat) : Replying (refusingEnv refused) := by
  have hstore := Storing.replying storing_storingEnv
  refine ⟨fun s q x hq => ?_, fun s key x reply hr => ?_⟩
  · change ∃ reply, (refusingServe refused s q x.1).1 = [reply] ∧ reply.opcode = Request.opcode q
    unfold refusingServe
    split
    · exact ⟨_, rfl, rfl⟩
    · exact hstore.one s q x.1 hq
  · refine hstore.quiet s key x.1 reply ?_
    have hserve : refusingServe refused s (.getkq key) x.1 = serve s (.getkq key) x.1 :=
      if_neg (by simp [Request.opcode])
    change reply ∈ (refusingServe refused s (.getkq key) x.1).1 at hr
    rw [hserve] at hr
    exact hr

end OptLrc.Statuses
