import OptLrc.Requests
import OptLrc.Framed
import OptLrc.Contents
import OptLrc.LastBlock

namespace OptLrc.Writers

open OptLrc.Galois OptLrc.Memory OptLrc.Jerasure OptLrc.Encoder OptLrc.Stripe OptLrc.Split OptLrc.Process
open OptLrc.Process.Proc OptLrc.Memcached OptLrc.Exchange OptLrc.Rack OptLrc.Storage OptLrc.Retrieval
open OptLrc.Repair OptLrc.Sync OptLrc.Wire OptLrc.Core OptLrc.Stored OptLrc.Writes OptLrc.Contents OptLrc.Requests

variable {V : CodingMatrix} {d : Client} {place : Nat → Nat} {key : Key} {value : Block}

section Sends

variable {A : Nat × Request → Prop} (hread : ∀ s q, Reading q → A (s, q))
  (hcore : ∀ q, A (d.networkCoreServerKey, q))

theorem keeps_memcachedSendBinary {s : Nat} {key : Key} {value : Block} {expiration flags : Nat}
    (hq : A (s, .set key value flags expiration)) :
    Keeps A (memcachedSendBinary s key value expiration flags) :=
  (keeps_memcachedVdo hq).bind (fun _ => keeps_memcachedResponse s)

/-- A store that does not go through the code is one write. -/
theorem sends_sendWith {lrcSend : LrcSend} {key : Key} {value : Block} {expiration flags : Nat}
    (hmode : d.lrcMode = false)
    (hq : ∀ s, (if d.isCore then d.instance d.networkCoreServerKey else d.nodeServer d.failNodeIndex) = .ok s →
      A (s, .set key value flags expiration)) :
    Sends A (Bounded A d) (memcachedSendWith lrcSend key value expiration flags) (fun _ => Bounded A d) := by
  refine (keeps_initializeQuery d).bind (fun rc => ?_)
  split
  · exact keeps_pure _ d
  split
  · exact keeps_pure _ d
  refine sends_get_bind (fun c hc => ?_)
  obtain ⟨io, rfl⟩ := hc.within
  have hoff : ({ d with io := io } : Client).lrcMode = false := hmode
  refine Sends.bind (Q := fun s c' => d.nodeServer d.failNodeIndex = .ok s ∧ Bounded A d c')
    (sends_lift (fun s hs c' hc' => ⟨hs, hc'⟩)) (fun s => ?_)
  rw [if_neg (by simp [hoff])]
  change Sends A _ (if d.isCore = true then _ else _) _
  by_cases hcore : d.isCore = true
  · simp only [hcore, if_true] at hq ⊢
    refine Sends.bind (Q := fun t c' => d.instance d.networkCoreServerKey = .ok t ∧ Bounded A d c')
      (sends_lift (fun t ht c' hc' => ⟨ht, hc'.2⟩)) (fun t => ?_)
    intro c' trace rc c'' hc'
    exact keeps_memcachedSendBinary (hq t hc'.1) d c' trace rc c'' hc'.2
  · simp only [hcore] at hq ⊢
    intro c' trace rc c'' hc'
    exact keeps_memcachedSendBinary (hq s hc'.1) d c' trace rc c'' hc'.2

include hread hcore in
/-- A transfer sends its requests to the core. -/
theorem sends_crossNetworkcore (hmode : d.isCore = false) (key : Key) (value : Block) :
    Sends A (Bounded A d) (crossNetworkcore key value) (fun _ => Bounded A d) := by
  refine Sends.bind (Q := fun _ => Bounded A { d with isCore := true }) (sends_modify (fun c hc => ?_)) (fun _ => ?_)
  · obtain ⟨io, rfl⟩ := hc.within
    exact ⟨⟨io, rfl⟩, hc.waiting⟩
  refine (sends_sendWith (by simp [Client.lrcMode]) (fun s hs => ?_)).bind (fun _ => ?_)
  · rw [if_pos rfl] at hs
    rw [(instance_lt hs).2]
    exact hcore _
  refine (keeps_memcachedGetByKey hread key _).bind (fun _ => sends_modify (fun c hc => ?_))
  obtain ⟨io, rfl⟩ := hc.within
  exact ⟨⟨io, by rw [← hmode]⟩, hc.waiting⟩

include hread hcore in
theorem sends_crossTimes (hmode : d.isCore = false) (key : Key) (ptrs : Cells Block) (size m : Nat) :
    Sends A (Bounded A d) (crossTimes key ptrs size m) (fun _ => Bounded A d) := by
  refine Sends.each (fun _ _ => (keeps_lift _ d).bind (fun block => ?_))
  exact (keeps_lift _ d).bind (fun value => sends_crossNetworkcore hread hcore hmode key value)

/-- A write-back is one write to the server of `fail_node_index`. -/
theorem sends_writeBack (hmode : d.isCore = false) {key : Key} {block : Block} {size s : Nat}
    (hs : d.nodeServer d.failNodeIndex = .ok s) (hq : ∀ value, A (s, .set key value 0 86400)) :
    Sends A (Bounded A d) (writeBack V key block size) (fun _ => Bounded A { d with numberOfB := 1 }) := by
  refine Sends.bind (Q := fun _ => Bounded A { d with numberOfB := 0 }) (sends_modify (fun c hc => ?_)) (fun _ => ?_)
  · obtain ⟨io, rfl⟩ := hc.within
    exact ⟨⟨io, rfl⟩, hc.waiting⟩
  refine (keeps_lift _ _).bind (fun value => ?_)
  refine (sends_sendWith (by simp [Client.lrcMode]) (fun t ht => ?_)).bind (fun _ => sends_modify (fun c hc => ?_))
  · rw [if_neg (by simp [hmode])] at ht
    rw [show d.nodeServer d.failNodeIndex = .ok t from ht] at hs
    cases hs
    exact hq value
  · obtain ⟨io, rfl⟩ := hc.within
    exact ⟨⟨io, rfl⟩, hc.waiting⟩

end Sends

section Repairs

/-- The requests of a repair of block `p`. -/
def RepairRequest (d : Client) (place : Nat → Nat) (key : Key) (p : Nat) (q : Nat × Request) : Prop :=
  q.1 = d.networkCoreServerKey ∨ Reading q.2 ∨ ∃ block, q = (place p, .set (blockKey key p) block 0 86400)

/-- A repair writes nothing but the block that it repairs, whatever the replies are. -/
theorem sends_memcachedRepair (hp : Placed d place) {p : Nat} (hlt : p < d.numberOfN) (key : Key) (valueLength : Nat) :
    Sends (RepairRequest d place key p) (Bounded (RepairRequest d place key p) d)
      (memcachedRepair V key valueLength p) (fun _ _ => True) := by
  have hread : ∀ s q, Reading q → RepairRequest d place key p (s, q) := fun s q hq => Or.inr (Or.inl hq)
  have hcore : ∀ q, RepairRequest d place key p (d.networkCoreServerKey, q) := fun q => Or.inl rfl
  have hrebuild : Sends (RepairRequest d place key p) (Bounded (RepairRequest d place key p) d)
      (rebuild V key valueLength p) (fun _ => Bounded (RepairRequest d place key p) d) := by
    refine (keeps_get d).bind (fun c => (keeps_memcachedMget hread _ d).bind (fun rc => ?_))
    split
    · refine (keeps_lift _ d).bind (fun num => (keeps_fetchEach _ _ _ d).bind (fun st => ?_))
      refine (keeps_lift _ d).bind (fun coding => (keeps_lift _ d).bind (fun sub => ?_))
      refine (sends_crossTimes hread hcore hp.notCore _ _ _ _).bind (fun _ => ?_)
      refine (keeps_lift _ d).bind (fun decoded => (keeps_lift _ d).bind (fun block => keeps_pure _ d))
    · exact keeps_pure _ d
  refine hrebuild.bind (fun r => ?_)
  obtain ⟨rc, rebuilt⟩ := r
  cases rebuilt with
  | none => exact sends_pure (fun _ _ => trivial)
  | some r =>
    refine Sends.bind (Q := fun _ => Bounded (RepairRequest d place key p) { d with failNodeIndex := p })
      (sends_modify (fun c hc => ?_)) (fun _ => ?_)
    · obtain ⟨io, rfl⟩ := hc.within
      exact ⟨⟨io, rfl⟩, hc.waiting⟩
    refine (sends_writeBack (d := { d with failNodeIndex := p }) (s := place p) hp.notCore (hp.nodeServer hlt)
      (fun value => Or.inr (Or.inr ⟨value, rfl⟩))).bind (fun _ => ?_)
    exact sends_pure (fun _ _ => trivial)

end Repairs

section Sets

/-- The requests of a set. -/
def SetRequest (V : CodingMatrix) (d : Client) (place : Nat → Nat) (key : Key) (value : Block)
    (expiration flags : Nat) (q : Nat × Request) : Prop :=
  q.1 = d.networkCoreServerKey ∨ Reading q.2 ∨
    ∃ i < d.numberOfN, q = (place i, storeRequest V d key value expiration flags i)

/-- Only a value that reaches its last data block leaves room for it. -/
theorem splits_of_alloc {k : Nat} (hk : 1 ≤ k) (hsmall : k ≤ 20) (hlen : value.length < 2 ^ 63)
    (h : alloc (sizeSub value.length (determineBlockSizeRs value.length k * (k - 1))) = .ok ()) : Splits k value := by
  refine ⟨?_, hlen⟩
  by_contra hlt
  have hquot := LastBlock.determineBlockSizeRs_quotient value.length hk
  have hdiv := Nat.mul_div_le value.length (8 * k)
  have hbound : determineBlockSizeRs value.length k * (k - 1) ≤ value.length + 8 * 20 := by
    obtain ⟨j, rfl⟩ : ∃ j, k = j + 1 := ⟨k - 1, by omega⟩
    generalize value.length / (8 * (j + 1)) = q at hquot hdiv
    have hle : determineBlockSizeRs value.length (j + 1) ≤ 8 * q + 8 := by
      rw [hquot]
      split <;> omega
    calc determineBlockSizeRs value.length (j + 1) * (j + 1 - 1) ≤ (8 * q + 8) * j := Nat.mul_le_mul_right j hle
      _ = 8 * (q * j) + 8 * j := by ring
      _ ≤ value.length + 8 * 20 := by
        have : 8 * (j + 1) * q = 8 * (q * j) + 8 * q := by ring
        omega
  generalize determineBlockSizeRs value.length k * (k - 1) = x at h hlt hbound
  have hsub : sizeSub value.length x = value.length + (2 ^ 64 - x) := by
    unfold sizeSub
    rw [Nat.mod_eq_of_lt (show x < 2 ^ 64 by omega), Nat.mod_eq_of_lt (by omega)]
  rw [alloc, if_neg (by omega)] at h
  cases h

theorem traced_each_transmit (s : Nat) (qs : List Request) :
    Traced (fun _ => True) (Proc.each (transmit s) qs) (fun _ _ trace => ∀ q ∈ qs, (s, q) ∈ trace) := by
  refine (Traced.each_mem (q := fun q => (s, q)) (fun q _ => ?_)).mono (fun _ h => h) (fun _ _ _ h => h.2)
  refine (traced_send (Q := fun _ _ trace => trace = [(s, q)]) s q (fun _ _ _ => rfl)).bind (fun _ before => ?_)
  exact traced_modify (fun c hc => ⟨trivial, by simp [hc]⟩)

theorem traced_memcachedVdo (s : Nat) (q : Request) :
    Traced (fun _ => True) (memcachedVdo s q) (fun _ _ trace => (s, q) ∈ trace) := by
  have hwrite : Traced (fun _ => True) (ioWritev s q true) (fun _ _ trace => (s, q) ∈ trace) := by
    refine Traced.get_bind (fun c _ => ?_)
    rw [if_pos rfl]
    refine Traced.modify_bind (fun _ => True) (fun _ _ => trivial) ?_
    exact (traced_each_transmit s _).mono (fun _ h => h) (fun _ _ _ h => h q (by simp))
  exact hwrite.bind (fun _ before => traced_modify (fun c hc => by simpa using hc))

variable {expiration flags : Nat}

theorem traced_sendBlock {A : Nat × Request → Prop} (hp : Placed d place) {all : Cells Block} {last block : Block}
    {lastIndex i : Nat} (hi : i < d.numberOfN) (hall : (if i ≠ lastIndex then all.read i else .ok last) = .ok block)
    (hq : A (place i, .set (blockKey key i) block flags expiration)) :
    Traced (Bounded A d) (sendBlock key all lastIndex last expiration flags i) (fun _ c trace =>
      ((∀ q ∈ trace, A q) ∧ Bounded A d c) ∧ (place i, .set (blockKey key i) block flags expiration) ∈ trace) := by
  refine Traced.get_bind (fun c hc => ?_)
  obtain ⟨io, rfl⟩ := hc.within
  refine Traced.lift_bind (fun s hs => Traced.lift_bind (fun b hb => ?_))
  rw [show ({ d with io := io } : Client).nodeServer i = .ok (place i) from hp.nodeServer hi] at hs
  rw [hall] at hb
  cases hs
  cases hb
  have hkeeps : Traced (Bounded A d) _ _ := keeps_memcachedVdo hq d
  refine (hkeeps.and ((traced_memcachedVdo _ _).mono (fun _ _ => trivial) (fun _ _ _ h => h))).mono
    (fun c h => ?_) (fun _ _ _ h => h)
  rw [h]
  exact hc

theorem traced_sendBlocks (hp : Placed d place) :
    Traced (Bounded (SetRequest V d place key value expiration flags) d)
      (Proc.each (sendBlock key (stripeCells V d value) (lastDataIndex d.numberOfK d.numberOfR)
        (lastBlock d.numberOfK value) expiration flags) (List.range d.numberOfN)) (fun _ c trace =>
        ((∀ q ∈ trace, SetRequest V d place key value expiration flags q) ∧
          Bounded (SetRequest V d place key value expiration flags) d c) ∧
        ∀ i < d.numberOfN, (place i, storeRequest V d key value expiration flags i) ∈ trace) := by
  have hstore : ∀ i ∈ List.range d.numberOfN, SetRequest V d place key value expiration flags
      (place i, .set (blockKey key i) (storedBlock V d.numberOfN d.numberOfK d.numberOfR value i) flags expiration) :=
    fun i hi => Or.inr (Or.inr ⟨i, List.mem_range.mp hi, rfl⟩)
  have hblock := fun i hi => traced_sendBlock hp (List.mem_range.mp hi)
    (stripeCells_read (V := V) hp value (List.mem_range.mp hi)) (hstore i hi)
  have hsends : Sends (SetRequest V d place key value expiration flags) _ _ _ :=
    Sends.each (l := List.range d.numberOfN) (fun i hi => (hblock i hi).mono (fun _ h => h) (fun _ _ _ h => h.1))
  have hwrites := Traced.each_mem (fun i hi => (hblock i hi).mono (fun _ h => h) (fun _ _ _ h => ⟨h.1.2, h.2⟩))
  exact (Traced.and hsends hwrites).mono (fun _ h => h)
    (fun _ _ _ h => ⟨h.1, fun i hi => h.2.2 i (List.mem_range.mpr hi)⟩)

/-- The transfers, the block writes, and the reply that is read. -/
theorem traced_distribute (hp : Placed d place) (server : Nat) (l : List Nat) :
    Traced (Bounded (SetRequest V d place key value expiration flags) d)
      (distribute V d server key value expiration flags l) (fun _ _ trace =>
        (∀ q ∈ trace, SetRequest V d place key value expiration flags q) ∧
        ∀ i < d.numberOfN, (place i, storeRequest V d key value expiration flags i) ∈ trace) := by
  have hread : ∀ s q, Reading q → SetRequest V d place key value expiration flags (s, q) :=
    fun s q hq => Or.inr (Or.inl hq)
  have hcore : ∀ q, SetRequest V d place key value expiration flags (d.networkCoreServerKey, q) := fun q => Or.inl rfl
  have hcross : Sends (SetRequest V d place key value expiration flags) _ _ _ := Sends.each (l := l) (fun i _ =>
    (keeps_lift (Cells.read (stripeCells V d value) i) d).bind (fun block =>
      sends_crossNetworkcore hread hcore hp.notCore (blockKey key i) block))
  refine Traced.bind hcross (fun _ before => ?_)
  refine Traced.bind (P := fun c => (∀ q ∈ before, SetRequest V d place key value expiration flags q) ∧
    Bounded (SetRequest V d place key value expiration flags) d c)
    (Q := fun _ c trace => ((∀ q ∈ before ++ trace, SetRequest V d place key value expiration flags q) ∧
      Bounded (SetRequest V d place key value expiration flags) d c) ∧
      ∀ i < d.numberOfN, (place i, storeRequest V d key value expiration flags i) ∈ trace) ?_ (fun _ after => ?_)
  · intro c trace a c' hc he
    obtain ⟨⟨hall, hbound⟩, hmem⟩ := traced_sendBlocks hp c trace a c' hc.2 he
    refine ⟨⟨fun q hq => ?_, hbound⟩, hmem⟩
    rcases List.mem_append.mp hq with hq | hq
    · exact hc.1 q hq
    · exact hall q hq
  · intro c trace rc c' hc he
    obtain ⟨hall, -⟩ := keeps_memcachedResponse server d c trace rc c' hc.1.2 he
    refine ⟨fun q hq => ?_, fun i hi => ?_⟩
    · rw [← List.append_assoc] at hq
      rcases List.mem_append.mp hq with hq | hq
      · exact hc.1.1 q hq
      · exact hall q hq
    · exact List.mem_append_right _ (List.mem_append_left _ (hc.2 i hi))

/-- A set writes the blocks of its value, each at least once, and nothing else. -/
theorem traced_lrcSendBinary (hV : FirstRowOnes V) (hp : Placed d place) (hlen : value.length < 2 ^ 63) (server : Nat) :
    Traced (Bounded (SetRequest V d place key value expiration flags) d)
      (lrcSendBinary V server key value expiration flags) (fun _ _ trace =>
        (∀ q ∈ trace, SetRequest V d place key value expiration flags q) ∧
        ∀ i < d.numberOfN, (place i, storeRequest V d key value expiration flags i) ∈ trace) := by
  have hsmall : d.numberOfN ≤ 20 := hp.small
  have hfits := hp.valid.fits
  refine Traced.get_bind (fun c hc => ?_)
  obtain ⟨io, rfl⟩ := hc.within
  refine Traced.lift_bind (fun fill hfill => ?_)
  rw [fillDataPtrs_eq] at hfill
  cases hfill
  refine Traced.lift_bind (fun all hall => ?_)
  rw [allBlocks_stored hV hp.valid hp.small value] at hall
  cases hall
  refine Traced.lift_bind (fun c hload => ?_)
  rw [loadRacks, if_pos hp.loaded] at hload
  cases hload
  refine Traced.modify_bind (Bounded (SetRequest V d place key value expiration flags) d) (fun _ _ => hc) ?_
  refine Traced.lift_bind (fun _ halloc => ?_)
  have hval := splits_of_alloc hp.valid.k_pos (by omega) hlen halloc
  refine Traced.lift_bind (fun data hdata => Traced.lift_bind (fun last hlast => Traced.lift_bind (fun l _ => ?_)))
  have hk := hp.valid.k_pos
  have hle := lastSize_le hk value
  rw [show Cells.read ((List.range d.numberOfK).map (fun i =>
    some (dataBlock (determineBlockSizeRs value.length d.numberOfK) value i))) (d.numberOfK - 1) =
    .ok (dataBlock (determineBlockSizeRs value.length d.numberOfK) value (d.numberOfK - 1)) from
    read_range (by omega)] at hdata
  cases hdata
  change readRange _ 0 (sizeSub value.length (determineBlockSizeRs value.length d.numberOfK * (d.numberOfK - 1))) =
    .ok last at hlast
  rw [sizeSub_lastSize hval, readRange_take _ _ (by rwa [length_dataBlock])] at hlast
  cases hlast
  exact traced_distribute hp server l

theorem traced_initializeQuery {A : Nat × Request → Prop} (hcount : d.serverCount ≠ 0) :
    Traced (Bounded A d) initializeQuery (fun rc c trace => (rc = .success ∧ trace = []) ∧ Bounded A d c) := by
  refine Traced.get_bind (fun c hc => ?_)
  obtain ⟨io, rfl⟩ := hc.within
  rw [if_neg (show ¬ ({ d with io := io } : Client).serverCount = 0 from hcount)]
  refine Traced.modify_bind (Bounded A d) (fun c h => ?_) (traced_pure (fun c h => ⟨⟨rfl, rfl⟩, h⟩))
  rw [h]
  exact ⟨⟨_, rfl⟩, hc.waiting⟩

theorem traced_memcachedSet (hV : FirstRowOnes V) (hp : Placed d place) (hkey : memcachedKeyTest key = true)
    (hlen : value.length < 2 ^ 63) :
    Traced (Bounded (SetRequest V d place key value expiration flags) d) (memcachedSet V key value expiration flags)
      (fun _ _ trace => (∀ q ∈ trace, SetRequest V d place key value expiration flags q) ∧
        ∀ i < d.numberOfN, (place i, storeRequest V d key value expiration flags i) ∈ trace) := by
  have hcount : d.serverCount ≠ 0 := by
    have := hp.core
    omega
  refine (traced_initializeQuery hcount).bind (fun rc before => ?_)
  intro c trace rc' c' hc he
  obtain ⟨⟨rfl, rfl⟩, hc⟩ := hc
  rw [if_neg (by simp), if_neg (by simp [hkey])] at he
  refine Traced.get_bind (P := Bounded (SetRequest V d place key value expiration flags) d)
    (Q := fun _ _ trace => (∀ q ∈ trace, SetRequest V d place key value expiration flags q) ∧
      ∀ i < d.numberOfN, (place i, storeRequest V d key value expiration flags i) ∈ trace)
    (fun c hc => Traced.lift_bind (fun s _ => ?_)) c trace rc' c' hc he
  obtain ⟨io, rfl⟩ := hc.within
  rw [if_pos (show ({ d with io := io } : Client).lrcMode = true from hp.lrcMode)]
  exact (traced_lrcSendBinary hV hp hlen s).mono (fun _ h => h ▸ hc) (fun _ _ _ h => h)

end Sets

section Contents

/-- What a request does to the item of a key on a server. -/
def write (s : Nat) (key : Key) (q : Nat × Request) : Option (Option Item) :=
  if q.1 = s then
    match q.2 with
    | .set key' value flags expiration => if key' = key then some (some ⟨value, flags, expiration⟩) else none
    | .delete key' => if key' = key then some none else none
    | _ => none
  else none

theorem serve_write (s : Nat) (key : Key) (q : Nat × Request) (w : World) :
    (serve q.1 q.2 w).2 s key = (write s key q).getD (w s key) := by
  obtain ⟨t, q⟩ := q
  unfold write
  by_cases ht : t = s
  · subst ht
    simp only [if_true]
    cases q with
    | set key' value flags expiration =>
      by_cases hk : key' = key
      · subst hk
        simp [serve, put_self]
      · simp only [serve, hk, if_false, Option.getD_none]
        exact put_of_ne (fun h => hk h.2.symm)
    | delete key' =>
      cases hw : w t key' with
      | none =>
        by_cases hk : key' = key
        · subst hk
          simp [serve, hw]
        · simp [serve, hw, hk]
      | some item =>
        by_cases hk : key' = key
        · subst hk
          simp [serve, hw, put_self]
        · simp only [serve, hw, hk, if_false, Option.getD_none]
          exact put_of_ne (fun h => hk h.2.symm)
    | getk key' => cases hw : w t key' <;> simp [serve, hw]
    | getkq key' => cases hw : w t key' <;> simp [serve, hw]
    | noop => simp [serve]
  · simp only [ht, if_false, Option.getD_none]
    cases q with
    | set key' value flags expiration => exact put_of_ne (fun h => ht h.1.symm)
    | delete key' =>
      cases hw : w t key' with
      | none => simp [serve, hw]
      | some item =>
        simp only [serve, hw]
        exact put_of_ne (fun h => ht h.1.symm)
    | getk key' => cases hw : w t key' <;> simp [serve, hw]
    | getkq key' => cases hw : w t key' <;> simp [serve, hw]
    | noop => simp [serve]

/-- A property of all that is written to a key, when something is. -/
theorem served_writes {P : Option Item → Prop} {s : Nat} {key : Key} {trace : List (Bool × Nat × Request)} {w : World}
    (hall : ∀ e ∈ trace, ∀ item, write s key e.2 = some item → P item)
    (hsome : (∃ e ∈ trace, (write s key e.2).isSome) ∨ P (w s key)) :
    P (trace.foldl (fun w e => (serve e.2.1 e.2.2 w).2) w s key) := by
  induction trace generalizing w with
  | nil => simpa using hsome
  | cons e trace ih =>
    refine ih (fun e' he' => hall e' (by simp [he'])) ?_
    change _ ∨ P ((serve e.2.1 e.2.2 w).2 s key)
    rw [serve_write]
    cases hw : write s key e.2 with
    | some item => exact Or.inr (hall e (by simp) item hw)
    | none =>
      rcases hsome with ⟨e', he', hsome⟩ | hsome
      · rcases List.mem_cons.mp he' with rfl | he'
        · simp [hw] at hsome
        · exact Or.inl ⟨e', he', hsome⟩
      · exact Or.inr hsome

end Contents

end OptLrc.Writers
