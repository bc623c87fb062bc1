import OptLrc.Triple
import OptLrc.Requests

namespace OptLrc.Framed

open OptLrc.Galois OptLrc.Memory OptLrc.Jerasure OptLrc.Encoder OptLrc.Process OptLrc.Process.Proc
open OptLrc.Memcached OptLrc.Exchange OptLrc.Rack OptLrc.Storage OptLrc.Retrieval OptLrc.Repair OptLrc.Requests

variable {α β : Type}

/-- The client, but for its connections and the last result. -/
def Within (d c : Client) : Prop := ∃ io, c = { d with io := io }

theorem within_refl (c : Client) : Within c c := ⟨c.io, rfl⟩

/-- The program changes only the connections, whatever the servers do. -/
def KeepsClient (p : Prog α) : Prop :=
  ∀ (σ : Type) (E : Env Request Reply σ) (d : Client), Triple E (Within d) p (fun _ => Within d)

section Rules

theorem keepsClient_pure (a : α) : KeepsClient (Pure.pure a : Prog α) :=
  fun _ _ _ => triple_pure (fun _ h => h)

theorem keepsClient_get : KeepsClient (Proc.get : Prog Client) :=
  fun _ _ _ => triple_get (fun _ h => h)

theorem keepsClient_lift (e : Except Fault α) : KeepsClient (Proc.lift e : Prog α) :=
  fun _ _ _ => triple_lift (fun _ _ _ h => h)

theorem keepsClient_fault (e : Fault) : KeepsClient (Proc.fault e : Prog α) := keepsClient_lift _

theorem keepsClient_io (f : Client → Client) (h : ∀ c, Within c (f c)) : KeepsClient (Proc.modify f) := by
  intro σ E d
  refine triple_modify (fun c hc => ?_)
  obtain ⟨io, rfl⟩ := hc
  obtain ⟨io', he⟩ := h { d with io := io }
  exact ⟨io', he⟩

theorem KeepsClient.bind {p : Prog α} {f : α → Prog β} (h : KeepsClient p) (hf : ∀ a, KeepsClient (f a)) :
    KeepsClient (p >>= f) :=
  fun σ E d => (h σ E d).bind (fun a => hf a σ E d)

theorem keepsClient_each {f : α → Prog Unit} (h : ∀ a, KeepsClient (f a)) (as : List α) :
    KeepsClient (Proc.each f as) :=
  fun σ E d => Triple.each (fun a _ => h a σ E d)

theorem keepsClient_ite {P : Prop} [Decidable P] {p q : Prog α} (hp : KeepsClient p) (hq : KeepsClient q) :
    KeepsClient (if P then p else q) := by
  split
  · exact hp
  · exact hq

end Rules

section Exchange

/-- The case in which any request may be sent. -/
theorem keepsClient_of_keeps {p : Prog α} (h : Keeps (fun _ => True) p) : KeepsClient p := by
  intro σ E d c x a c' y hc he
  obtain ⟨trace, ht⟩ := Net.ends_run E (p c) x
  rw [show (p c).run E x = (.ok (a, c'), y) from he] at ht
  exact (h d c trace a c' ⟨hc, fun _ _ _ => trivial⟩ ht).2.within

theorem keepsClient_memcachedVdo (s : Nat) (q : Request) : KeepsClient (memcachedVdo s q) :=
  keepsClient_of_keeps (keeps_memcachedVdo trivial)

theorem keepsClient_memcachedResponse (s : Nat) : KeepsClient (memcachedResponse s) :=
  keepsClient_of_keeps (keeps_memcachedResponse s)

theorem keepsClient_initializeQuery : KeepsClient initializeQuery := keepsClient_of_keeps keeps_initializeQuery

theorem keepsClient_simpleBinaryMget (keys : List Key) (mgetMode : Bool) :
    KeepsClient (simpleBinaryMget keys mgetMode) :=
  keepsClient_of_keeps (keeps_simpleBinaryMget (fun _ _ _ => trivial) keys mgetMode)

theorem keepsClient_memcachedMget (keys : List Key) : KeepsClient (memcachedMget keys) :=
  keepsClient_of_keeps (keeps_memcachedMget (fun _ _ _ => trivial) keys)

theorem keepsClient_memcachedGetByKey (key : Key) : KeepsClient (memcachedGetByKey key) :=
  keepsClient_of_keeps (keeps_memcachedGetByKey (fun _ _ _ => trivial) key)

theorem keepsClient_fetchEach (body : β → Result → Except Fault β) (m : Nat) (st : β) :
    KeepsClient (fetchEach body m st) :=
  keepsClient_of_keeps (keeps_fetchEach body m st)

end Exchange

section Calls

variable {σ : Type} {E : Env Request Reply σ} {d : Client} {V : CodingMatrix}

theorem keepsClient_memcachedSendBinary (s : Nat) (key : Key) (value : Block) (expiration flags : Nat) :
    KeepsClient (memcachedSendBinary s key value expiration flags) :=
  (keepsClient_memcachedVdo s _).bind (fun _ => keepsClient_memcachedResponse s)

theorem triple_sendWith {lrcSend : LrcSend} {key : Key} {value : Block} {expiration flags : Nat}
    (h : ∀ s, Triple E (Within d) (lrcSend s key value expiration flags) (fun _ => Within d)) :
    Triple E (Within d) (memcachedSendWith lrcSend key value expiration flags) (fun _ => Within d) := by
  refine (keepsClient_initializeQuery σ E d).bind (fun rc => ?_)
  split
  · exact triple_pure (fun _ h => h)
  split
  · exact triple_pure (fun _ h => h)
  refine (keepsClient_get σ E d).bind (fun c => ?_)
  refine (keepsClient_lift _ σ E d).bind (fun s => ?_)
  split
  · exact h s
  split
  · exact ((keepsClient_lift _).bind (fun core => keepsClient_memcachedSendBinary core _ _ _ _)) σ E d
  · exact keepsClient_memcachedSendBinary s _ _ _ _ σ E d

/-- A transfer through the core leaves core mode off. -/
theorem triple_crossNetworkcore (key : Key) (value : Block) :
    Triple E (Within d) (crossNetworkcore key value) (fun _ => Within { d with isCore := false }) := by
  refine Triple.bind (Q := fun _ => Within { d with isCore := true }) (triple_modify ?_) (fun _ => ?_)
  · rintro c ⟨io, rfl⟩
    exact ⟨io, rfl⟩
  refine (triple_sendWith (fun _ => keepsClient_fault _ σ E _)).bind (fun _ => ?_)
  refine (keepsClient_memcachedGetByKey key σ E _).bind (fun _ => triple_modify ?_)
  rintro c ⟨io, rfl⟩
  exact ⟨io, rfl⟩

theorem triple_cross_notCore (hcore : d.isCore = false) (key : Key) (value : Block) :
    Triple E (Within d) (crossNetworkcore key value) (fun _ => Within d) := by
  refine (triple_crossNetworkcore key value).mono (fun _ h => h) (fun _ c h => ?_)
  obtain ⟨io, rfl⟩ := h
  exact ⟨io, by rw [← hcore]⟩

/-- A store through the code changes only the connections of the client that `add_rack` gives. -/
theorem triple_lrcSendBinary_load {c : Client} (hload : ∀ io, ∃ io', loadRacks { c with io := io } = .ok { d with io := io' })
    (hcore : d.isCore = false) (server : Nat) (key : Key) (value : Block) (expiration flags : Nat) :
    Triple E (Within c) (lrcSendBinary V server key value expiration flags) (fun _ => Within d) := by
  refine Triple.bind (Q := fun c1 _ => Within c c1) (triple_get (fun _ h => h)) (fun c1 => ?_)
  refine Triple.bind (Q := fun _ _ => Within c c1) (triple_lift (fun _ _ _ h => h)) (fun ptrs => ?_)
  refine Triple.bind (Q := fun _ _ => Within c c1) (triple_lift (fun _ _ _ h => h)) (fun all => ?_)
  refine Triple.bind (Q := fun c2 _ => Within d c2) (triple_lift ?_) (fun c2 => ?_)
  · rintro c2 he - ⟨io, rfl⟩
    obtain ⟨io', hio⟩ := hload io
    rw [hio] at he
    cases he
    exact ⟨io', rfl⟩
  refine Triple.bind (Q := fun _ => Within d) (triple_modify (fun _ h => h)) (fun _ => ?_)
  refine (keepsClient_lift _ σ E d).bind (fun _ => ?_)
  refine (keepsClient_lift _ σ E d).bind (fun lastData => ?_)
  refine (keepsClient_lift _ σ E d).bind (fun last => ?_)
  refine (keepsClient_lift _ σ E d).bind (fun transfers => ?_)
  refine Triple.bind (Q := fun _ => Within d) (Triple.each (fun i _ => ?_)) (fun _ => ?_)
  · exact (keepsClient_lift _ σ E d).bind (fun block => triple_cross_notCore hcore _ block)
  have hsend : ∀ i, KeepsClient (sendBlock key all (lastDataIndex c2.numberOfK c2.numberOfR) last expiration
      flags i) := by
    intro i
    refine keepsClient_get.bind (fun c => (keepsClient_lift _).bind (fun s => ?_))
    exact (keepsClient_lift _).bind (fun block => keepsClient_memcachedVdo s _)
  refine (keepsClient_each hsend _ σ E d).bind (fun _ => ?_)
  exact keepsClient_memcachedResponse server σ E d

theorem triple_lrcSendBinary (hload : d.rackIsAdd = true) (hcore : d.isCore = false) (server : Nat)
    (key : Key) (value : Block) (expiration flags : Nat) :
    Triple E (Within d) (lrcSendBinary V server key value expiration flags) (fun _ => Within d) := by
  refine triple_lrcSendBinary_load (fun io => ⟨io, ?_⟩) hcore server key value expiration flags
  rw [loadRacks, if_pos hload]
  rfl

theorem triple_memcachedSet (hload : d.rackIsAdd = true) (hcore : d.isCore = false) (key : Key)
    (value : Block) (expiration flags : Nat) :
    Triple E (Within d) (memcachedSet V key value expiration flags) (fun _ => Within d) :=
  triple_sendWith (fun s => triple_lrcSendBinary hload hcore s key value expiration flags)

theorem keepsClient_memcachedDeleteByKeyLrc (key : Key) (expiration index : Nat) :
    KeepsClient (memcachedDeleteByKeyLrc key expiration index) := by
  refine keepsClient_initializeQuery.bind (fun rc => keepsClient_ite (keepsClient_pure _) ?_)
  refine keepsClient_ite (keepsClient_pure _) (keepsClient_ite (keepsClient_pure _) ?_)
  refine keepsClient_get.bind (fun c => (keepsClient_lift _).bind (fun s => ?_))
  exact (keepsClient_memcachedVdo s _).bind (fun _ => keepsClient_memcachedResponse s)

/-- A write-back leaves `number_of_b` at one. -/
theorem triple_writeBack_b (hload : d.rackIsAdd = true) (hcore : d.isCore = false) (key : Key) (block : Block)
    (size : Nat) :
    Triple E (Within d) (writeBack V key block size) (fun _ => Within { d with numberOfB := 1 }) := by
  refine Triple.bind (Q := fun _ => Within { d with numberOfB := 0 }) (triple_modify ?_) (fun _ => ?_)
  · rintro c ⟨io, rfl⟩
    exact ⟨io, rfl⟩
  refine (keepsClient_lift _ σ E _).bind (fun value => ?_)
  refine (triple_memcachedSet (d := { d with numberOfB := 0 }) hload hcore key value 86400 0).bind (fun _ => ?_)
  refine triple_modify ?_
  rintro c ⟨io, rfl⟩
  exact ⟨io, rfl⟩

theorem triple_crossTimes_within (hcore : d.isCore = false) (key : Key) (ptrs : Cells Block) (size m : Nat) :
    Triple E (Within d) (crossTimes key ptrs size m) (fun _ => Within d) := by
  refine Triple.each (fun _ _ => ?_)
  refine (keepsClient_lift _ σ E d).bind (fun block => ?_)
  exact (keepsClient_lift _ σ E d).bind (fun value => triple_cross_notCore hcore key value)

end Calls

end OptLrc.Framed
