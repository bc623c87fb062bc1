import OptLrc.Trace
import OptLrc.Repair

namespace OptLrc.Requests

open OptLrc.Galois OptLrc.Memory OptLrc.Jerasure OptLrc.Encoder OptLrc.Process OptLrc.Process.Proc
open OptLrc.Memcached OptLrc.Exchange OptLrc.Storage OptLrc.Retrieval OptLrc.Repair

variable {α β : Type}

/-- A request that leaves what the server holds alone. -/
def Reading : Request → Prop
  | .getk _ => True
  | .getkq _ => True
  | .noop => True
  | _ => False

/-- The client, but for its connections, with only such requests in its write buffers. -/
structure Bounded (A : Nat × Request → Prop) (d c : Client) : Prop where
  within : ∃ io, c = { d with io := io }
  waiting : ∀ s, ∀ q ∈ (c.io.conn s).writeBuffer, A (s, q)

/-- The program sends only such requests and changes only the connections, whatever the replies. -/
def Keeps (A : Nat × Request → Prop) (p : Prog α) : Prop :=
  ∀ d, Sends A (Bounded A d) p (fun _ => Bounded A d)

variable {A : Nat × Request → Prop}

section Rules

theorem keeps_pure (a : α) : Keeps A (Pure.pure a : Prog α) := fun _ => sends_pure (fun _ h => h)

theorem keeps_get : Keeps A (Proc.get : Prog Client) := fun _ => sends_get (fun _ h => h)

theorem keeps_lift (e : Except Fault α) : Keeps A (Proc.lift e : Prog α) := fun _ => sends_lift (fun _ _ _ h => h)

theorem Keeps.bind {p : Prog α} {f : α → Prog β} (h : Keeps A p) (hf : ∀ a, Keeps A (f a)) : Keeps A (p >>= f) :=
  fun d => (h d).bind (fun a => hf a d)

theorem keeps_each {f : α → Prog Unit} (h : ∀ a, Keeps A (f a)) (as : List α) : Keeps A (Proc.each f as) :=
  fun d => Sends.each (fun a _ => h a d)

theorem keeps_ite {P : Prop} [Decidable P] {p q : Prog α} (hp : Keeps A p) (hq : Keeps A q) :
    Keeps A (if P then p else q) := by
  split
  · exact hp
  · exact hq

theorem keeps_io {f : Client → Client} (h : ∀ c, ∃ io, f c = { c with io := io } ∧
      ((∀ s, ∀ q ∈ (c.io.conn s).writeBuffer, A (s, q)) → ∀ s, ∀ q ∈ (io.conn s).writeBuffer, A (s, q))) :
    Keeps A (Proc.modify f) := by
  intro d
  refine sends_modify (fun c hc => ?_)
  obtain ⟨io, he, hw⟩ := h c
  obtain ⟨io', hio'⟩ := hc.within
  rw [he]
  exact ⟨⟨io, by rw [hio']⟩, hw hc.waiting⟩

end Rules

section Exchange

theorem keeps_modifyConn (s : Nat) {f : Conn → Conn}
    (hf : ∀ conn, (∀ q ∈ conn.writeBuffer, A (s, q)) → ∀ q ∈ (f conn).writeBuffer, A (s, q)) :
    Keeps A (modifyConn s f) := by
  refine keeps_io (fun c => ⟨c.io.set s (f (c.io.conn s)), rfl, fun hw t q hq => ?_⟩)
  by_cases h : t = s
  · subst h
    exact hf _ (hw t) q (by simpa [Io.set] using hq)
  · exact hw t q (by simpa [Io.set, h] using hq)

theorem keeps_transmit {s : Nat} {q : Request} (hq : A (s, q)) : Keeps A (transmit s q) :=
  Keeps.bind (fun _ => sends_send hq (fun _ _ h => h)) (fun _ => keeps_modifyConn s (fun _ h => h))

/-- A program that goes on with the client as it is. -/
theorem sends_get_bind {d : Client} {f : Client → Prog α} {Q : α → Client → Prop}
    (h : ∀ c, Bounded A d c → Sends A (Bounded A d) (f c) Q) : Sends A (Bounded A d) (Proc.get >>= f) Q := by
  refine Sends.bind (Q := fun c c' => Bounded A d c ∧ Bounded A d c') (sends_get (fun _ h => ⟨h, h⟩)) (fun c => ?_)
  intro c' trace a c'' hc
  exact h c hc.1 c' trace a c'' hc.2

theorem keeps_ioWritev {s : Nat} {q : Request} (hq : A (s, q)) (flush : Bool) : Keeps A (ioWritev s q flush) := by
  refine fun d => sends_get_bind (fun c hc => ?_)
  split
  · refine (keeps_modifyConn s (fun _ _ q hq => by cases hq) d).bind (fun _ => Sends.each (fun r hr => ?_))
    refine keeps_transmit ?_ d
    rcases List.mem_append.mp hr with hr | hr
    · exact hc.waiting s r hr
    · rw [List.mem_singleton.mp hr]
      exact hq
  · refine keeps_modifyConn s (fun conn hconn r hr => ?_) d
    rcases List.mem_append.mp hr with hr | hr
    · exact hconn r hr
    · rw [List.mem_singleton.mp hr]
      exact hq

theorem keeps_memcachedVdo {s : Nat} {q : Request} (hq : A (s, q)) : Keeps A (memcachedVdo s q) :=
  (keeps_ioWritev hq true).bind (fun _ => keeps_modifyConn s (fun _ h => h))

/-- Reading a reply adds nothing to the write buffer. -/
theorem writeBuffer_readOneResponse {conn conn' : Conn} {result result' : Result} {rc : ReturnCode}
    (h : readOneResponse conn result = .ok (rc, conn', result')) : conn'.writeBuffer ⊆ conn.writeBuffer := by
  obtain ⟨wb, inbox, count⟩ := conn
  cases inbox with
  | nil => cases h
  | cons reply rest =>
    obtain ⟨opcode, status, key, flags, value⟩ := reply
    cases status with
    | success => cases opcode <;> cases h <;> simp
    | _ =>
      cases h
      simp [statusCode, memcachedFatal, Conn.idle]

theorem writeBuffer_drainConn {fuel : Nat} {conn conn' : Conn} {result result' : Result}
    (h : drainConn fuel conn result = .ok (conn', result')) : conn'.writeBuffer ⊆ conn.writeBuffer := by
  induction fuel generalizing conn result with
  | zero =>
    unfold drainConn at h
    split at h
    · cases h
      exact List.Subset.refl _
    · cases h
  | succ fuel ih =>
    unfold drainConn at h
    split at h
    · cases h
      exact List.Subset.refl _
    · obtain ⟨⟨rc, conn1, result1⟩, hread, hdrain⟩ := bind_eq_ok.mp h
      exact List.Subset.trans (ih hdrain) (writeBuffer_readOneResponse hread)

theorem writeBuffer_drain {count : Nat} {io io' : Io} (h : drain count io = .ok io') (s : Nat) :
    (io'.conn s).writeBuffer ⊆ (io.conn s).writeBuffer := by
  induction count generalizing io' with
  | zero =>
    cases h
    exact List.Subset.refl _
  | succ count ih =>
    obtain ⟨io1, hio1, h⟩ := bind_eq_ok.mp h
    obtain ⟨⟨conn, result⟩, hconn, h⟩ := bind_eq_ok.mp h
    cases h
    by_cases hs : s = count
    · subst hs
      simpa [Io.set] using List.Subset.trans (writeBuffer_drainConn hconn) (ih hio1)
    · simpa [Io.set, hs] using ih hio1

theorem keeps_memcachedResponse (s : Nat) : Keeps A (memcachedResponse s) := by
  refine fun d => sends_get_bind (fun c hc => ?_)
  refine Sends.bind (Q := fun r c' => Bounded A d c' ∧ r.2.1.writeBuffer ⊆ (c.io.conn s).writeBuffer)
    (sends_lift (fun r hr c' hc' => ⟨hc', writeBuffer_readOneResponse hr⟩)) (fun r => ?_)
  refine Sends.bind (Q := fun _ => Bounded A d) (sends_modify (fun c' hc' => ?_)) (fun _ => keeps_pure _ d)
  obtain ⟨io, hio⟩ := hc'.1.within
  refine ⟨⟨{ c'.io.set s r.2.1 with result := r.2.2 }, by rw [hio]⟩, fun t q hq => ?_⟩
  by_cases h : t = s
  · subst h
    exact hc.waiting t q (hc'.2 (by simpa [Io.set] using hq))
  · exact hc'.1.waiting t q (by simpa [Io.set, h] using hq)

theorem keeps_initializeQuery : Keeps A initializeQuery := by
  refine keeps_get.bind (fun c => keeps_ite (keeps_pure _) ?_)
  exact (keeps_io (fun c => ⟨{ c.io with result := .reset }, rfl, fun h => h⟩)).bind (fun _ => keeps_pure _)

variable (hread : ∀ s q, Reading q → A (s, q))
include hread

theorem keeps_simpleBinaryMget (keys : List Key) (mgetMode : Bool) : Keeps A (simpleBinaryMget keys mgetMode) := by
  have hkey : ∀ key, Keeps A (mgetKey keys.length mgetMode key) := by
    intro key
    refine keeps_get.bind (fun c => (keeps_lift _).bind (fun s => ?_))
    refine (keeps_ioWritev (hread s _ ?_) _).bind (fun _ => keeps_modifyConn s (fun _ h => h))
    cases mgetMode <;> trivial
  have hnoop : ∀ s, Keeps A (mgetNoop s) := fun s =>
    keeps_get.bind (fun c => keeps_ite (keeps_ioWritev (hread s .noop trivial) _) (keeps_pure ()))
  refine (keeps_each hkey keys).bind (fun _ => keeps_ite ?_ (keeps_pure _))
  exact keeps_get.bind (fun c => (keeps_each hnoop _).bind (fun _ => keeps_pure _))

theorem keeps_mgetByKeyReal (keys : List Key) (mgetMode : Bool) : Keeps A (mgetByKeyReal keys mgetMode) := by
  refine keeps_initializeQuery.bind (fun rc => keeps_ite (keeps_pure _) ?_)
  refine keeps_ite (keeps_pure _) (keeps_ite (keeps_pure _) (fun d => sends_get_bind (fun c hc => ?_)))
  refine Sends.bind (Q := fun io c' => Bounded A d c' ∧ ∀ s, (io.conn s).writeBuffer ⊆ (c.io.conn s).writeBuffer)
    (sends_lift (fun io hio c' hc' => ⟨hc', writeBuffer_drain hio⟩)) (fun io => ?_)
  refine Sends.bind (Q := fun _ => Bounded A d) (sends_modify (fun c' hc' => ?_))
    (fun _ => keeps_simpleBinaryMget hread keys mgetMode d)
  obtain ⟨io', hio'⟩ := hc'.1.within
  exact ⟨⟨io, by rw [hio']⟩, fun s q hq => hc.waiting s q (hc'.2 s hq)⟩

theorem keeps_memcachedMget (keys : List Key) : Keeps A (memcachedMget keys) := keeps_mgetByKeyReal hread keys true

omit hread in
theorem keeps_readableServer : Keeps A readableServer := by
  refine keeps_get.bind (fun c => ?_)
  split
  · exact keeps_pure _
  · exact keeps_pure _
  · exact Keeps.bind (fun _ => sends_poll _ _ _ (fun _ _ h => h)) (fun _ => keeps_pure _)

omit hread in
theorem keeps_fetchLoop (fuel : Nat) (error : ReturnCode) : Keeps A (fetchLoop fuel error) := by
  induction fuel generalizing error with
  | zero => exact keeps_lift (.error .blocked)
  | succ fuel ih =>
    refine keeps_readableServer.bind (fun s => ?_)
    cases s with
    | none => exact keeps_pure _
    | some s =>
      refine (keeps_memcachedResponse s).bind (fun rc => ?_)
      split
      · exact keeps_get.bind (fun c => keeps_pure _)
      · exact Keeps.bind (keeps_modifyConn s (fun conn h => by exact h)) (fun _ => ih _)
      · exact ih _
      · exact keeps_pure _

omit hread in
theorem keeps_memcachedFetchResult : Keeps A memcachedFetchResult := keeps_get.bind (fun _ => keeps_fetchLoop _ _)

theorem keeps_memcachedGetByKey (key : Key) : Keeps A (memcachedGetByKey key) :=
  (keeps_mgetByKeyReal hread [key] false).bind (fun _ => keeps_ite (keeps_pure _) keeps_memcachedFetchResult)

omit hread in
theorem keeps_fetchEach (body : β → Result → Except Fault β) (m : Nat) (st : β) : Keeps A (fetchEach body m st) := by
  induction m generalizing st with
  | zero => exact keeps_pure _
  | succ m ih =>
    refine keeps_memcachedFetchResult.bind (fun r => ?_)
    obtain ⟨result, rc⟩ := r
    cases result with
    | none => exact ih st
    | some result => exact (keeps_lift _).bind (fun st' => ih st')

end Exchange

end OptLrc.Requests
