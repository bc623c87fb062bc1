import OptLrc.Exchange

namespace OptLrc.Sync

open OptLrc.Galois OptLrc.Memory OptLrc.Jerasure OptLrc.Encoder OptLrc.Process OptLrc.Memcached
open OptLrc.Exchange

def Reply.quietHit (reply : Reply) : Prop := reply.status = .success ∧ reply.opcode = .getkq

instance (reply : Reply) : Decidable (Reply.quietHit reply) := inferInstanceAs (Decidable (_ ∧ _))

def Reply.fatal (reply : Reply) : Prop := memcachedFatal (statusCode reply.status) = true

instance (reply : Reply) : Decidable (Reply.fatal reply) := inferInstanceAs (Decidable (_ = _))

/-- Reading replies until none is expected leaves none unread, or a fatal one closes the
connection. -/
def Settles : List Reply → Nat → Prop
  | [], count => count = 0
  | _ :: _, 0 => False
  | reply :: rest, count + 1 =>
    Reply.fatal reply ∨ Settles rest (if Reply.quietHit reply then count + 1 else count)

structure Conn.Synced (conn : Conn) : Prop where
  sent : conn.writeBuffer = []
  settles : Settles conn.inbox conn.responseCount

/-- Every reply on its way to the client is accounted for. -/
structure Io.Synced (hosts : Nat) (io : Io) : Prop where
  conn : ∀ s, Conn.Synced (io.conn s)
  idle : ∀ s, hosts ≤ s → io.conn s = .idle

theorem not_fatal_of_success {reply : Reply} (h : reply.status = .success) : ¬ Reply.fatal reply := by
  simp [Reply.fatal, h, statusCode, memcachedFatal]

theorem settles_append {inbox : List Reply} {count : Nat} (h : Settles inbox count) {reply : Reply}
    (hq : ¬ Reply.quietHit reply) : Settles (inbox ++ [reply]) (count + 1) := by
  induction inbox generalizing count with
  | nil =>
    rw [show count = 0 from h]
    exact Or.inr (by simp [hq, Settles])
  | cons a inbox ih =>
    obtain ⟨m, rfl⟩ : ∃ m, count = m + 1 := by
      cases count with
      | zero => exact h.elim
      | succ m => exact ⟨m, rfl⟩
    rcases h with hf | h
    · exact Or.inl hf
    · refine Or.inr ?_
      have := ih h
      by_cases ha : Reply.quietHit a <;> simpa [ha] using this

theorem settles_quiet (hits : List Reply) (hh : ∀ reply ∈ hits, Reply.quietHit reply ∨ Reply.fatal reply)
    {last : Reply} (hl : ¬ Reply.quietHit last) : Settles (hits ++ [last]) 1 := by
  induction hits with
  | nil => exact Or.inr (by simp [hl, Settles])
  | cons a hits ih =>
    have := ih (fun reply h => hh reply (by simp [h]))
    rcases hh a (by simp) with ha | ha
    · exact Or.inr (by simpa [ha] using this)
    · exact Or.inl ha

theorem synced_idle : Conn.Synced .idle := ⟨rfl, rfl⟩

theorem eq_idle {conn : Conn} (h : Conn.Synced conn) (h0 : conn.responseCount = 0) :
    conn = .idle := by
  obtain ⟨wb, inbox, count⟩ := conn
  obtain ⟨rfl, hs⟩ := h
  simp only at h0 hs
  subst h0
  cases inbox with
  | nil => rfl
  | cons a inbox => exact hs.elim

/-- A server that owes a reply can be read, and the connection stays in order. -/
theorem readOneResponse_synced {conn : Conn} (h : Conn.Synced conn) (hc : conn.responseCount ≠ 0)
    (result : Result) :
    ∃ rc conn' result', readOneResponse conn result = .ok (rc, conn', result') ∧
      Conn.Synced conn' ∧ conn'.inbox.length < conn.inbox.length := by
  obtain ⟨wb, inbox, count⟩ := conn
  obtain ⟨rfl, hs⟩ := h
  cases inbox with
  | nil => exact absurd hs hc
  | cons a rest =>
    obtain ⟨m, rfl⟩ : ∃ m, count = m + 1 := ⟨count - 1, by simp only at hc; omega⟩
    obtain ⟨opcode, status, key, flags, value⟩ := a
    cases status with
    | success =>
      have hs : Settles rest _ := hs.resolve_left (not_fatal_of_success rfl)
      cases opcode with
      | getkq => exact ⟨_, ⟨[], rest, m + 1⟩, _, rfl, ⟨rfl, by simpa [Reply.quietHit] using hs⟩, by simp⟩
      | _ => exact ⟨_, ⟨[], rest, m⟩, _, rfl, ⟨rfl, by simpa [Reply.quietHit] using hs⟩, by simp⟩
    | enomem | einval => exact ⟨_, .idle, _, rfl, synced_idle, by simp [Conn.idle]⟩
    | _ =>
      have hs : Settles rest _ := hs.resolve_left (by simp [Reply.fatal, statusCode, memcachedFatal])
      exact ⟨_, ⟨[], rest, m⟩, _, rfl, ⟨rfl, by simpa [Reply.quietHit] using hs⟩, by simp⟩

theorem readOneResponse_count {conn conn' : Conn} {result result' : Result} {rc : ReturnCode}
    (h : readOneResponse conn result = .ok (rc, conn', result')) (hc : conn.responseCount = 1) :
    conn'.responseCount ≤ 1 ∧ (rc = .finished → conn'.responseCount = 0) := by
  obtain ⟨wb, inbox, count⟩ := conn
  cases inbox with
  | nil => cases h
  | cons reply rest =>
    obtain ⟨opcode, status, key, flags, value⟩ := reply
    simp only at hc
    subst hc
    cases status with
    | success => cases opcode <;> cases h <;> simp
    | _ =>
      cases h
      simp [statusCode, memcachedFatal, Conn.idle]

theorem drainConn_eq (fuel : Nat) {conn : Conn} (h : Conn.Synced conn) (result : Result)
    (hf : conn.inbox.length ≤ fuel) : ∃ result', drainConn fuel conn result = .ok (.idle, result') := by
  induction fuel generalizing conn result with
  | zero =>
    have h0 : conn.responseCount = 0 := by
      have hs := h.settles
      rw [List.eq_nil_of_length_eq_zero (Nat.le_zero.mp hf)] at hs
      exact hs
    exact ⟨result, by rw [drainConn, if_pos h0, eq_idle h h0]⟩
  | succ fuel ih =>
    by_cases h0 : conn.responseCount = 0
    · exact ⟨result, by rw [drainConn, if_pos h0, eq_idle h h0]⟩
    · obtain ⟨rc, conn', result', he, hs, hlt⟩ := readOneResponse_synced h h0 result
      obtain ⟨result'', hd⟩ := ih hs result' (by omega)
      exact ⟨result'', by simp only [drainConn, h0, if_false, he, ok_bind, hd]⟩

theorem drain_eq (count : Nat) (io : Io) (h : ∀ s, Conn.Synced (io.conn s)) :
    ∃ result, drain count io = .ok ⟨fun s => if s < count then .idle else io.conn s, result⟩ := by
  induction count with
  | zero => exact ⟨io.result, by simp [drain]⟩
  | succ count ih =>
    obtain ⟨result, he⟩ := ih
    obtain ⟨result', hd⟩ := drainConn_eq _ (h count) result le_rfl
    refine ⟨result', ?_⟩
    simp only [drain, he, ok_bind, lt_irrefl, if_false, hd, pure_eq_ok, Io.set]
    congr 2
    funext s
    by_cases hs : s = count
    · simp [hs]
    · have : s < count + 1 ↔ s < count := by omega
      simp only [Function.update_of_ne hs, this]

theorem drain_synced {hosts : Nat} {io : Io} (h : Io.Synced hosts io) :
    ∃ result, drain hosts io = .ok ⟨fun _ => .idle, result⟩ := by
  obtain ⟨result, he⟩ := drain_eq hosts io h.conn
  refine ⟨result, ?_⟩
  rw [he]
  congr 2
  funext s
  split
  · rfl
  · next hs => exact h.idle s (by omega)

end OptLrc.Sync
