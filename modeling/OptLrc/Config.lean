import OptLrc.Framed
import OptLrc.Length
import OptLrc.Statuses

namespace OptLrc.Config

open OptLrc.Galois OptLrc.Memory OptLrc.Jerasure OptLrc.Encoder OptLrc.Stripe OptLrc.Process
open OptLrc.Process.Proc OptLrc.Memcached OptLrc.Exchange OptLrc.Storage OptLrc.Retrieval OptLrc.Repair
open OptLrc.Sync OptLrc.Core OptLrc.Stored OptLrc.Writes OptLrc.Arrival OptLrc.Reads OptLrc.Gets
open OptLrc.Keeping OptLrc.Length OptLrc.Framed OptLrc.Statuses

/-- The fields that `memcached_behavior_set` and the rack file give the client. -/
structure SameConfig (c c' : Client) : Prop where
  numberOfN : c'.numberOfN = c.numberOfN
  numberOfK : c'.numberOfK = c.numberOfK
  numberOfR : c'.numberOfR = c.numberOfR
  numberOfB : c'.numberOfB = c.numberOfB
  numberOfRack : c'.numberOfRack = c.numberOfRack
  encodingScheme : c'.encodingScheme = c.encodingScheme
  isCore : c'.isCore = c.isCore
  node2rack : c'.node2rack = c.node2rack
  nodeRack : c'.nodeRack = c.nodeRack

/-- A multi-get of the keys is sent. -/
def Admitted (c : Client) (keys : List Key) : Prop :=
  c.serverCount ≠ 0 ∧ keys ≠ [] ∧ keys.all memcachedKeyTest = true

/-- The keys that a repair of block `p` asks for. -/
def repairKeys (c : Client) (key : Key) (p : Nat) : List Key :=
  (List.range (if c.numberOfN < (c.numberOfR + 1) * (p / (c.numberOfR + 1) + 1) then
    c.numberOfN - p / (c.numberOfR + 1) * (c.numberOfR + 1) else c.numberOfR + 1)).map
    (fun i => blockKey key (i + p / (c.numberOfR + 1) * (c.numberOfR + 1)))

/-- The index that a get gives to the reply with the key of data block `j`. -/
def replyIndex (c : Client) (key : Key) (j : Nat) : Nat :=
  (blockKeys key (position c.numberOfR) c.numberOfK).findIdx
    (fun key' => cString (blockKey key (position c.numberOfR j)) = cString key')

/-- The call decodes a block and stores it again: a repair that sends its multi-get, and a get
for which no reply counts as one of the data blocks. -/
def WritesBack (place : Nat → Nat) (c : Client) (w : World) : Call → Prop
  | .set .. => False
  | .delete .. => False
  | .repair key _ p => Admitted c (repairKeys c key p)
  | .get key _ => key.length ≤ 248 ∧ ∃ i < c.numberOfK, ∀ j < c.numberOfK,
    HasData w place key c.numberOfR j → replyIndex c key j ≠ i

variable {σ : Type} {E : Env Request Reply σ} {view : σ → World} {V : CodingMatrix} {d c c' : Client} {x y : σ}
  {place : Nat → Nat} {key : Key}

theorem sameConfig_within (h : Within c c') : SameConfig c c' := by
  obtain ⟨io, rfl⟩ := h
  exact ⟨rfl, rfl, rfl, rfl, rfl, rfl, rfl, rfl, rfl⟩

/-- The client after a write-back. -/
def Rewritten (d c : Client) : Prop := ∃ fail, Within { d with failNodeIndex := fail, numberOfB := 1 } c

theorem sameConfig_rewritten (h : Rewritten c c') : SameConfig c c' ↔ c.numberOfB = 1 := by
  obtain ⟨fail, io, rfl⟩ := h
  constructor
  · intro h
    exact h.numberOfB.symm
  · intro h
    exact ⟨rfl, rfl, rfl, h.symm, rfl, rfl, rfl, rfl, rfl⟩

/-- The client after a call that writes back exactly when `P`. -/
structure After (P : Prop) (d c : Client) : Prop where
  rewritten : P → Rewritten d c
  within : ¬ P → Within d c

theorem After.config_iff {P : Prop} (h : After P c c') : SameConfig c c' ↔ c.numberOfB = 1 ∨ ¬ P := by
  by_cases hP : P
  · rw [sameConfig_rewritten (h.rewritten hP)]
    tauto
  · exact ⟨fun _ => Or.inr hP, fun _ => sameConfig_within (h.within hP)⟩

section Mget

theorem triple_initializeQuery : Triple E (Within d) initializeQuery
    (fun rc c => Within d c ∧ (rc = .success ↔ d.serverCount ≠ 0)) := by
  intro c x rc c' y h he
  have hkeep := keepsClient_initializeQuery σ E d c x rc c' y h he
  refine ⟨hkeep, ?_⟩
  obtain ⟨io, rfl⟩ := h
  have hcount : ({ d with io := io } : Client).serverCount = d.serverCount := rfl
  by_cases h0 : d.serverCount = 0
  · rw [initializeQuery, Proc.exec_bind, Proc.exec_get] at he
    simp only [hcount, h0, if_true, Proc.exec_pure] at he
    cases he
    simp [h0]
  · rw [exec_initializeQuery E _ x (by rw [hcount]; exact h0)] at he
    cases he
    simp [h0]

theorem triple_mget_admitted (keys : List Key) : Triple E (Within d) (memcachedMget keys)
    (fun rc c => Within d c ∧ (rc = .success ↔ Admitted d keys)) := by
  have hsend : ∀ mode, Triple E (Within d) (simpleBinaryMget keys mode)
      (fun rc c => Within d c ∧ rc = .success) := by
    intro mode c x rc c' y h he
    refine ⟨keepsClient_simpleBinaryMget keys mode σ E d c x rc c' y h he, ?_⟩
    refine (Triple.bind (R := fun rc _ => rc = .success) (triple_true _) (fun _ => ?_)) c x rc c' y h he
    split
    · refine (triple_true _).bind (fun _ => ?_)
      exact (triple_true _).bind (fun _ => triple_pure (fun _ _ => rfl))
    · exact triple_pure (fun _ _ => rfl)
  refine triple_initializeQuery.bind (fun rc => ?_)
  unfold Admitted
  split
  · next hrc =>
    refine triple_pure (fun c h => ⟨h.1, ?_⟩)
    have := h.2
    tauto
  split
  · next hnil =>
    refine triple_pure (fun c h => ⟨h.1, ?_⟩)
    simp [hnil]
  split
  · next hall =>
    refine triple_pure (fun c h => ⟨h.1, ?_⟩)
    simp only [reduceCtorEq, false_iff]
    tauto
  · next hrc hnil hall =>
    intro c x rc' c' y h he
    have hrun := ((keepsClient_get σ E d).bind (R := fun rc c => Within d c ∧ rc = .success) (fun c1 =>
      (keepsClient_lift _ σ E d).bind (fun io =>
        (keepsClient_io _ (fun _ => ⟨_, rfl⟩) σ E d).bind (fun _ => hsend true)))) c x rc' c' y h.1 he
    refine ⟨hrun.1, ?_⟩
    rw [hrun.2]
    have := h.2
    tauto

end Mget

theorem triple_fetch_within {α β : Type} {body : β → Result → Except Fault β} {P : Prop} [Decidable P] {m : Nat}
    {st : β} {f : β → Prog α} {R : α → Client → Prop} (hf : ∀ st', Triple E (Within d) (f st') R) :
    Triple E (Within d) (if P then fetchEach body m st >>= f else Pure.pure st >>= f) R := by
  split
  · exact (keepsClient_fetchEach body m st σ E d).bind hf
  · exact (keepsClient_pure st σ E d).bind hf

section Repairs

variable (hload : d.rackIsAdd = true) (hcore : d.isCore = false)
include hload hcore

omit hload in
theorem triple_rebuild (key : Key) (valueLength p : Nat) :
    Triple E (Within d) (rebuild V key valueLength p)
      (fun r c => Within d c ∧ (r.2.isSome = true ↔ Admitted d (repairKeys d key p))) := by
  refine Triple.bind (Q := fun c c' => Within d c ∧ Within d c') (triple_get (fun _ h => ⟨h, h⟩)) (fun c => ?_)
  intro c1 x r c2 y h he
  obtain ⟨io, rfl⟩ := h.1
  refine ((triple_mget_admitted (repairKeys d key p)).bind
    (R := fun r c => Within d c ∧ (r.2.isSome = true ↔ Admitted d (repairKeys d key p)))
    (fun rc => ?_)) c1 x r c2 y h.2 he
  split
  · next hrc =>
    intro c3 x3 r3 c4 y4 h3 he3
    have hadm : Admitted d (repairKeys d key p) := h3.2.mp hrc
    refine (Triple.bind (P := Within d)
      (R := fun r c => Within d c ∧ (r.2.isSome = true ↔ Admitted d (repairKeys d key p)))
      (keepsClient_lift _ σ E d) (fun num => ?_)) c3 x3 r3 c4 y4 h3.1 he3
    refine (keepsClient_fetchEach _ _ _ σ E d).bind (fun st => ?_)
    refine (keepsClient_lift _ σ E d).bind (fun coding => ?_)
    refine (keepsClient_lift _ σ E d).bind (fun sub => ?_)
    refine (triple_crossTimes_within hcore _ _ _ _).bind (fun _ => ?_)
    refine (keepsClient_lift _ σ E d).bind (fun decoded => ?_)
    refine (keepsClient_lift _ σ E d).bind (fun block => ?_)
    exact triple_pure (fun _ h => ⟨h, by simp [hadm]⟩)
  · next hrc =>
    refine triple_pure (fun c h => ⟨h.1, ?_⟩)
    have := h.2
    simp only [Option.isSome_none, Bool.false_eq_true, false_iff]
    tauto

theorem triple_memcachedRepair_config (key : Key) (valueLength p : Nat) :
    Triple E (Within d) (memcachedRepair V key valueLength p)
      (fun _ => After (Admitted d (repairKeys d key p)) d) := by
  refine (triple_rebuild hcore key valueLength p).bind (fun r => ?_)
  obtain ⟨rc, rebuilt⟩ := r
  cases rebuilt with
  | none =>
    refine triple_pure (fun c h => ⟨fun hadm => ?_, fun _ => h.1⟩)
    exact absurd (h.2.mpr hadm) (by simp)
  | some r =>
    obtain ⟨block, size, flags⟩ := r
    intro c x a c' y h he
    have hadm : Admitted d (repairKeys d key p) := h.2.mp rfl
    refine (Triple.bind (P := Within d) (Q := fun _ => Within { d with failNodeIndex := p })
      (R := fun _ => After (Admitted d (repairKeys d key p)) d) (triple_modify ?_) (fun _ => ?_)) c x a c' y h.1 he
    · rintro c ⟨io, rfl⟩
      exact ⟨io, rfl⟩
    · refine (triple_writeBack_b (d := { d with failNodeIndex := p }) hload hcore _ _ _).bind (fun _ => ?_)
      exact triple_pure (fun c h => ⟨fun _ => ⟨p, h⟩, fun hn => absurd hadm hn⟩)

theorem triple_repairData_config (key : Key) (fail : Nat) (st : Fetched) :
    Triple E (Within d) (repairData V key fail st) (fun _ => Rewritten d) := by
  refine Triple.bind (Q := fun _ => Within { d with failNodeIndex := fail + fail / d.numberOfR })
    (triple_modify ?_) (fun _ => ?_)
  · rintro c ⟨io, rfl⟩
    exact ⟨io, rfl⟩
  generalize fail + fail / d.numberOfR = f
  refine (keepsClient_get σ E _).bind (fun c => ?_)
  refine (keepsClient_lift _ σ E _).bind (fun subValues => ?_)
  refine (keepsClient_lift _ σ E _).bind (fun gathered => ?_)
  refine (keepsClient_memcachedMget _ σ E _).bind (fun rc => ?_)
  refine triple_fetch_within (fun decoding => ?_)
  refine (triple_crossTimes_within (d := { d with failNodeIndex := f }) hcore _ _ _ _).bind (fun _ => ?_)
  refine (keepsClient_lift _ σ E _).bind (fun dataPtrs => ?_)
  refine (keepsClient_lift _ σ E _).bind (fun decoded => ?_)
  refine (keepsClient_lift _ σ E _).bind (fun block => ?_)
  refine (triple_writeBack_b (d := { d with failNodeIndex := f }) hload hcore _ _ _).bind (fun _ => ?_)
  refine Triple.bind (Q := fun _ => Within { d with failNodeIndex := f, numberOfB := 1 })
    (triple_lift (fun _ _ _ h => h)) (fun subValues => ?_)
  exact triple_pure (fun c h => ⟨f, h⟩)

/-- The rest of a get, after its first fetch. -/
theorem triple_afterFetch (key : Key) (k r n valueLength : Nat) (st : Fetched) :
    Triple E (Within d) (do
      Proc.each (crossData key r (failIndex n st.nodeFail) st) (List.range k)
      let st ← if failIndex n st.nodeFail ≠ n then repairData V key (failIndex n st.nodeFail) st else Pure.pure st
      let value ← Proc.lift (reassemble k valueLength st)
      return (⟨some value, valueLength, .success, st.flags⟩ : GetResult))
      (fun _ => After (failIndex n st.nodeFail ≠ n) d) := by
  refine Triple.bind (Q := fun _ => Within d) (Triple.each (fun i _ => ?_)) (fun _ => ?_)
  · unfold crossData
    split
    · refine (keepsClient_lift _ σ E d).bind (fun block => ?_)
      exact (keepsClient_lift _ σ E d).bind (fun value => triple_cross_notCore hcore _ value)
    · exact keepsClient_pure () σ E d
  split
  · next hfail =>
    refine (triple_repairData_config hload hcore key _ st).bind (fun st' => ?_)
    refine Triple.bind (Q := fun _ => Rewritten d) (triple_lift (fun _ _ _ h => h)) (fun bytes => ?_)
    exact triple_pure (fun c h => ⟨fun _ => h, fun hn => absurd hfail hn⟩)
  · next hfail =>
    refine (keepsClient_pure st σ E d).bind (fun st' => ?_)
    refine (keepsClient_lift _ σ E d).bind (fun bytes => ?_)
    exact triple_pure (fun c h => ⟨fun hf => absurd hf hfail, fun _ => h⟩)

end Repairs

section Gets

theorem triple_memcachedGet_config (hload : d.rackIsAdd = true) (hcore : d.isCore = false) (key : Key)
    (valueLength : Nat) : Triple E (Within d) (memcachedGet V key valueLength)
      (fun _ c => ∃ P, After P d c) := by
  have hwithin : ∀ c, Within d c → ∃ P, After P d c := fun c h => ⟨False, False.elim, fun _ => h⟩
  refine (keepsClient_get σ E d).bind (fun c => ?_)
  split
  · refine (keepsClient_get σ E d).bind (fun c => ?_)
    refine (keepsClient_memcachedMget _ σ E d).bind (fun rc => ?_)
    split
    · refine (keepsClient_fetchEach _ _ _ σ E d).bind (fun st => ?_)
      exact (triple_afterFetch hload hcore key _ _ _ valueLength st).mono (fun _ h => h) (fun _ c h => ⟨_, h⟩)
    · exact triple_pure hwithin
  · refine (keepsClient_memcachedGetByKey key σ E d).bind (fun r => ?_)
    split
    split
    · exact triple_pure hwithin
    · exact triple_pure hwithin

theorem failIndex_eq_iff {n : Nat} {nodeFail : List Bool} (hn : nodeFail.length ≤ n) :
    failIndex n nodeFail = n ↔ ∀ i < nodeFail.length, nodeFail[i]? ≠ some true := by
  have hrun : ∀ m ≤ nodeFail.length, ((List.range m).foldl
      (fun fail i => if nodeFail[i]? = some true then i else fail) n = n ∧ ∀ i < m, nodeFail[i]? ≠ some true) ∨
      ((List.range m).foldl (fun fail i => if nodeFail[i]? = some true then i else fail) n < m ∧
        ∃ i < m, nodeFail[i]? = some true) := by
    intro m
    induction m with
    | zero => exact fun _ => Or.inl ⟨rfl, by simp⟩
    | succ m ih =>
      intro hm
      rw [List.range_succ, List.foldl_append, List.foldl_cons, List.foldl_nil]
      by_cases hf : nodeFail[m]? = some true
      · rw [if_pos hf]
        exact Or.inr ⟨by omega, m, by omega, hf⟩
      · rw [if_neg hf]
        rcases ih (by omega) with ⟨he, hno⟩ | ⟨hlt, i, hi, hyes⟩
        · refine Or.inl ⟨he, fun i hi => ?_⟩
          rcases Nat.lt_succ_iff_lt_or_eq.mp hi with h | rfl
          · exact hno i h
          · exact hf
        · exact Or.inr ⟨by omega, i, by omega, hyes⟩
  unfold failIndex
  rcases hrun _ le_rfl with ⟨he, hno⟩ | ⟨hlt, i, hi, hyes⟩
  · exact ⟨fun _ => hno, fun _ => he⟩
  · constructor
    · intro h
      omega
    · intro h
      exact absurd hyes (h i hi)

/-- A data block counts as failed when no reply is taken for it. -/
theorem nodeFail_foldlM {pos : Nat → Nat} {keys : List Key} {k : Nat} (order : List (Nat × Item))
    {st st' : Fetched} (h : order.foldlM (fun st a => storeFetched key.length k keys st (arrival key pos a)) st =
      .ok st') {i : Nat} (hi : i < st.nodeFail.length) :
    st'.nodeFail.length = st.nodeFail.length ∧ (st'.nodeFail[i]? = some true ↔ st.nodeFail[i]? = some true ∧
      ∀ a ∈ order, keys.findIdx (fun key' => cString (blockKey key (pos a.1)) = cString key') ≠ i) := by
  induction order generalizing st with
  | nil =>
    cases h
    simp
  | cons a order ih =>
    rw [List.foldlM_cons, bind_eq_ok] at h
    obtain ⟨st1, h1, h⟩ := h
    obtain ⟨j, hj, hfail⟩ := storeFetched_nodeFail h1
    have hlen : (blockKey key (pos a.1)).length = key.length + 2 := by
      rw [blockKey, List.length_append]
      rfl
    have hjeq : keys.findIdx (fun key' => cString (blockKey key (pos a.1)) = cString key') = j := by
      simp only [matchKey, arrival, hlen, if_true] at hj
      exact Except.ok.inj hj
    have hlen1 : st1.nodeFail.length = st.nodeFail.length := by rw [hfail, List.length_set]
    obtain ⟨hlen', hiff⟩ := ih h (by rw [hlen1]; exact hi)
    refine ⟨hlen'.trans hlen1, ?_⟩
    rw [hiff, hfail]
    simp only [List.mem_cons, forall_eq_or_imp, hjeq]
    by_cases hij : j = i
    · subst hij
      rw [List.getElem?_set_self hi]
      simp
    · rw [List.getElem?_set_ne hij]
      tauto

/-- A get over servers that store what they were sent writes a block back exactly when no reply
counts as that block. -/
theorem memcachedGet_after (hE : Storing E view) (hp : Placed c place) (hs : Io.Synced c.serverCount c.io)
    {valueLength : Nat} {result : GetResult}
    (he : (memcachedGet V key valueLength).exec E c x = (.ok (result, c'), y)) :
    After (WritesBack place c (view x) (.get key valueLength)) c c' := by
  have hv := hp.valid
  have hpos : ∀ s < c.numberOfK, position c.numberOfR s < c.numberOfN := fun s hs => position_lt hv hs
  by_cases hkey : key.length ≤ 248
  · obtain ⟨io, order, hmget, hperm, hfetch⟩ := exec_mget_fetch hp hpos (x := x) hE hs hkey hv.k_pos
      (storeFetched key.length c.numberOfK (blockKeys key (position c.numberOfR) c.numberOfK))
      (firstState c.numberOfK valueLength)
    rw [exec_memcachedGet hp, Proc.exec_bind_ok E c x hmget, if_pos rfl] at he
    rcases hfetch with ⟨e, z, -, hex⟩ | ⟨st, io', z, -, -, hfold, hex⟩
    · rw [Proc.exec_bind_error E _ _ hex] at he
      cases he
    · rw [Proc.exec_bind_ok E _ _ hex] at he
      have hafter := triple_afterFetch (V := V) hp.loaded hp.notCore key c.numberOfK c.numberOfR
        c.numberOfN valueLength st _ z result c' y ⟨io', rfl⟩ he
      have hfirst : (firstState c.numberOfK valueLength).nodeFail.length = c.numberOfK := by simp [firstState]
      have hlen : st.nodeFail.length = c.numberOfK := by
        rw [← hfirst]
        exact (nodeFail_foldlM order hfold (i := 0) (by rw [hfirst]; exact hv.k_pos)).1
      have hle : c.numberOfK ≤ c.numberOfN := by
        have := hv.fits
        omega
      have hiff : failIndex c.numberOfN st.nodeFail ≠ c.numberOfN ↔
          WritesBack place c (view x) (.get key valueLength) := by
        rw [ne_eq, failIndex_eq_iff (by omega)]
        push Not
        rw [hlen]
        simp only [WritesBack, hkey, true_and]
        apply exists_congr
        intro i
        apply and_congr_right
        intro hi
        rw [(nodeFail_foldlM order hfold (i := i) (by rw [hfirst]; exact hi)).2]
        have htrue : (firstState c.numberOfK valueLength).nodeFail[i]? = some true := by
          simp [firstState, hi]
        rw [htrue]
        simp only [true_and]
        constructor
        · rintro h j hj ⟨item, hitem⟩
          exact h (j, item) (hperm.mem_iff.mpr (mem_present.mpr ⟨hj, hitem⟩))
        · intro h a ha
          obtain ⟨hj, hitem⟩ := mem_present.mp (hperm.mem_iff.mp ha)
          exact h a.1 hj ⟨a.2, hitem⟩
      exact ⟨fun h => hafter.rewritten (hiff.mpr h), fun h => hafter.within (fun hf => h (hiff.mp hf))⟩
  · refine ⟨fun h => absurd h.1 hkey, fun _ => ?_⟩
    rw [exec_memcachedGet_long hp (by omega)] at he
    cases he
    exact ⟨_, rfl⟩

end Gets

/-- The calls that may decode a block. -/
def decodes : Call → Bool
  | .get .. => true
  | .repair .. => true
  | _ => false

/-- A client whose racks may hold two blocks each. -/
def pairClient : Client := { sampleClient 5 3 2 with numberOfB := 2 }

/-- An object of 40 bytes whose first block was lost. -/
def lostWorld : World := fun s key =>
  if s = 0 then none else wholeWorld (fun _ _ _ _ => 1) 5 3 2 [1] (List.replicate 40 1) s key

end OptLrc.Config
