import OptLrc.Reads
import OptLrc.Runs

namespace OptLrc.Gets

open OptLrc.Galois OptLrc.Memory OptLrc.Jerasure OptLrc.Encoder OptLrc.Stripe OptLrc.Split
open OptLrc.Process OptLrc.Memcached OptLrc.Exchange OptLrc.Storage OptLrc.Retrieval OptLrc.Sync
open OptLrc.Wire OptLrc.Core OptLrc.Fetch OptLrc.Lookup OptLrc.Stored OptLrc.Writes OptLrc.Keys
open OptLrc.Contents OptLrc.Arrival OptLrc.Decode OptLrc.Rebuild OptLrc.Reads OptLrc.Runs

variable {σ : Type} {E : Env Request Reply σ} {view : σ → World} {V : CodingMatrix} {c : Client} {x : σ}
  {place : Nat → Nat} {key : Key} {value : Block}

/-- The data blocks that are there. -/
def HasData (w : World) (place : Nat → Nat) (key : Key) (r s : Nat) : Prop :=
  ∃ item, w (place (position r s)) (blockKey key (position r s)) = some item

/-- Every data block that is there is the one that the encoder stores. -/
def IntactData (V : CodingMatrix) (n k r : Nat) (place : Nat → Nat) (key : Key) (value : Block) (w : World) :
    Prop :=
  ∀ s < k, ∀ item, w (place (position r s)) (blockKey key (position r s)) = some item →
    item.value = storedBlock V n k r value (position r s)

/-- Every data block that is there has these flags. -/
def FlaggedData (k r : Nat) (place : Nat → Nat) (key : Key) (flags : Nat) (w : World) : Prop :=
  ∀ s < k, ∀ item, w (place (position r s)) (blockKey key (position r s)) = some item → item.flags = flags

/-- What a get knows before its first reply. -/
def firstState (k : Nat) (valueLength : Nat) : Fetched :=
  ⟨Cells.new k, List.replicate k true, determineBlockSizeRs valueLength k,
    sizeSub valueLength (determineBlockSizeRs valueLength k * (k - 1)), none⟩

theorem dataState_first {k : Nat} (hval : Splits k value) :
    DataState k value [] (firstState k value.length) where
  length := by simp [firstState]
  sub s hs := by simp [firstState, Cells.new, hs]
  failed := by
    simp only [firstState, List.not_mem_nil, not_false_eq_true, decide_true]
    rw [List.map_const', List.length_range]
  blockSize := by simp [firstState, fetchedSize]
  lastSize := sizeSub_lastSize hval

/-- What a get has fetched of the data blocks, and the flags it reports when they agree. -/
theorem exec_fetch_data (hE : Storing E view) (hp : Placed c place) (hs : Io.Synced c.serverCount c.io)
    (hnul : (0 : Byte) ∉ key) (hkey : key.length ≤ 248) (hval : Splits c.numberOfK value)
    (hint : IntactData V c.numberOfN c.numberOfK c.numberOfR place key value (view x)) :
    ∃ io io' z done st,
      (memcachedMget (blockKeys key (position c.numberOfR) c.numberOfK)).exec E c x =
        (.ok (.success, { c with io := io }), mgetState E (blockRoute place)
          (blockKeys key (position c.numberOfR) c.numberOfK) x c.serverCount) ∧
      (fetchEach (storeFetched key.length c.numberOfK (blockKeys key (position c.numberOfR) c.numberOfK))
        c.numberOfK (firstState c.numberOfK value.length)).exec E { c with io := io }
          (mgetState E (blockRoute place) (blockKeys key (position c.numberOfR) c.numberOfK) x
            c.serverCount) = (.ok (st, { c with io := io' }), z) ∧
      Io.Synced c.serverCount io' ∧
      E.Picks (mgetState E (blockRoute place) (blockKeys key (position c.numberOfR) c.numberOfK) x
        c.serverCount) z ∧ view z = view x ∧ DataState c.numberOfK value done st ∧
      (∀ s < c.numberOfK, s ∈ done ↔ HasData (view x) place key c.numberOfR s) ∧
      ∀ flags, FlaggedData c.numberOfK c.numberOfR place key flags (view x) → done ≠ [] →
        st.flags = some flags := by
  have hv := hp.valid
  have hpos : ∀ s < c.numberOfK, position c.numberOfR s < c.numberOfN := fun s hs => position_lt hv hs
  obtain ⟨io, io', z, done, st, hmget, hfetch, hs', hpicks, hst, hdone⟩ := exec_fetch_invariant hp hpos (x := x)
    hE hs hkey hv.k_pos
    (storeFetched key.length c.numberOfK (blockKeys key (position c.numberOfR) c.numberOfK))
    (firstState c.numberOfK value.length)
    (I := fun done st => DataState c.numberOfK value done st ∧
      ∀ flags, FlaggedData c.numberOfK c.numberOfR place key flags (view x) → done ≠ [] → st.flags = some flags)
    ⟨dataState_first hval, fun _ _ h => absurd rfl h⟩
    (fun done st s item hs hitem hst => by
      obtain ⟨st', hstore, hst', hflags⟩ := storeFetched_eq hv hp.small hnul hst.1 hs (hint s hs item hitem)
      exact ⟨st', hstore, hst', fun flags hf _ => by rw [hflags, hf s hs item hitem]⟩)
  refine ⟨io, io', z, done, st, hmget, hfetch, hs', hpicks, ?_, hst.1, hdone, hst.2⟩
  rw [view_picks hE hpicks, view_mgetState hE]

/-- The transfers of a get: the data blocks that arrived go through the core. -/
def crossData (key : Key) (r fail : Nat) (st : Fetched) (i : Nat) : Prog Unit := do
  if i ≠ fail then
    let block ← Proc.lift (st.subValues.read i)
    let value ← Proc.lift (readRange block 0 st.blockSize)
    crossNetworkcore (blockKey key (i + i / r)) value

theorem exec_crossData (hE : Replying E) (hp : Placed c place) (hs : Io.Synced c.serverCount c.io)
    {fail : Nat} {done : List Nat} {st : Fetched}
    (hst : DataState c.numberOfK value done st)
    (hdone : ∀ s < c.numberOfK, s ≠ fail → s ∈ done) :
    ∃ io y, (Proc.each (crossData key c.numberOfR fail st) (List.range c.numberOfK)).exec E c x =
        (.ok ((), { c with io := io }), y) ∧
      Io.Synced c.serverCount io ∧ CoreOnly E c.networkCoreServerKey x y := by
  refine exec_each_cross hE hp hs _ (fun i hi => ?_)
  have hik := List.mem_range.mp hi
  by_cases h : i = fail
  · left
    rw [crossData, if_neg (by simp [h])]
  · right
    have hread : st.subValues.read i = .ok (fetchedBlock c.numberOfK value i) :=
      Cells.read_eq (by rw [hst.sub i hik, if_pos (hdone i hik h)])
    have hlen : st.blockSize ≤ (fetchedBlock c.numberOfK value i).length := by
      rw [hst.blockSize]
      by_cases hk : c.numberOfK = 1
      · have h0 : 0 ∈ done := by
          have : i = 0 := by omega
          exact this ▸ hdone i hik h
        rw [fetchedSize, if_pos ⟨hk, h0⟩, fetchedBlock, if_pos hk]
      · rw [fetchedSize_of_ne hk, fetchedBlock, if_neg hk, length_dataBlock]
    refine ⟨blockKey key (i + i / c.numberOfR), (fetchedBlock c.numberOfK value i).take st.blockSize, fun c' x' => ?_⟩
    rw [crossData, if_pos h, hread]
    simp only [Proc.exec_bind, Proc.exec_lift_ok, readRange_take _ _ hlen]

theorem foldl_failIndex {nodeFail : List Bool} (l : List Nat) (n : Nat) (h : ∀ i ∈ l, nodeFail[i]? ≠ some true) :
    l.foldl (fun fail i => if nodeFail[i]? = some true then i else fail) n = n := by
  induction l with
  | nil => rfl
  | cons a l ih =>
    rw [List.foldl_cons, if_neg (h a (by simp))]
    exact ih (fun i hi => h i (by simp [hi]))

/-- With every data block there, none counts as failed. -/
theorem failIndex_healthy {k : Nat} {done : List Nat} {st : Fetched} (hst : DataState k value done st)
    (hdone : ∀ s < k, s ∈ done) (n : Nat) : failIndex n st.nodeFail = n := by
  refine foldl_failIndex _ n (fun i hi => ?_)
  rw [hst.failed, List.mem_range, List.length_map, List.length_range] at *
  simp [hi, hdone i hi]

theorem exec_memcachedGet (hp : Placed c place) (key : Key) (valueLength : Nat) :
    (memcachedGet V key valueLength).exec E c x = (do
      let rc ← memcachedMget (blockKeys key (position c.numberOfR) c.numberOfK)
      if rc = .success then
        let st ← fetchEach (storeFetched key.length c.numberOfK
          (blockKeys key (position c.numberOfR) c.numberOfK)) c.numberOfK (firstState c.numberOfK valueLength)
        let fail := failIndex c.numberOfN st.nodeFail
        Proc.each (crossData key c.numberOfR fail st) (List.range c.numberOfK)
        let st ← if fail ≠ c.numberOfN then repairData V key fail st else pure st
        let value ← Proc.lift (reassemble c.numberOfK valueLength st)
        return ⟨some value, valueLength, .success, st.flags⟩
      else return ⟨none, valueLength, rc, none⟩ : Prog GetResult).exec E c x := by
  rw [memcachedGet, Proc.exec_bind, Proc.exec_get]
  simp only [hp.lrcMode, if_true]
  rw [memcachedGetLrc, Proc.exec_bind, Proc.exec_get]
  rfl

/-- A get with every data block there returns the value, with the flags of the blocks, and
leaves the storage alone. -/
theorem memcachedGet_healthy (hE : Storing E view) (hp : Placed c place) (hs : Io.Synced c.serverCount c.io)
    (hnul : (0 : Byte) ∉ key) (hkey : key.length ≤ 248) (hval : Splits c.numberOfK value)
    (hint : IntactData V c.numberOfN c.numberOfK c.numberOfR place key value (view x))
    (hall : ∀ s < c.numberOfK, HasData (view x) place key c.numberOfR s) :
    ∃ flags io y, (memcachedGet V key value.length).exec E c x =
        (.ok (⟨some (value.map some), value.length, .success, flags⟩, { c with io := io }), y) ∧
      Io.Synced c.serverCount io ∧ SameStorage c.networkCoreServerKey (view y) (view x) ∧
      ∀ f, FlaggedData c.numberOfK c.numberOfR place key f (view x) → flags = some f := by
  obtain ⟨io, io', z, done, st, hmget, hfetch, hs', -, hview, hst, hdone, hflags⟩ := exec_fetch_data (V := V) hE hp hs
    hnul hkey hval hint
  have hmem : ∀ s < c.numberOfK, s ∈ done := fun s hs => (hdone s hs).mpr (hall s hs)
  have hfail := failIndex_healthy hst hmem c.numberOfN
  obtain ⟨io'', y, hcross, hs'', hy⟩ : ∃ io'' y,
      (Proc.each (crossData key c.numberOfR c.numberOfN st) (List.range c.numberOfK)).exec E
        { c with io := io' } z = (.ok ((), { c with io := io'' }), y) ∧
      Io.Synced c.serverCount io'' ∧ CoreOnly E c.networkCoreServerKey z y :=
    exec_crossData (Storing.replying hE) (hp.io io') hs' hst (fun s hs _ => hmem s hs)
  have hre := reassemble_eq hp.valid.k_pos hval
    (fun s hs => readable_of_fetched hp.valid.k_pos hval hst hs (hmem s hs))
  have hne : done ≠ [] := List.ne_nil_of_mem (hmem 0 hp.valid.k_pos)
  refine ⟨st.flags, io'', y, ?_, hs'', ?_, fun f hf => hflags f hf hne⟩
  · rw [exec_memcachedGet hp, Proc.exec_bind_ok E c x hmget, if_pos rfl, Proc.exec_bind_ok E _ _ hfetch]
    simp only [hfail]
    rw [Proc.exec_bind_ok E _ _ hcross]
    simp only [ne_eq, not_true_eq_false, if_false, Proc.exec_bind, Proc.exec_pure, hre, Proc.exec_lift_ok]
  · rw [← hview]
    exact view_coreOnly hE hy

/-- Every object that was set has its whole stripe on the servers. -/
def Complete (V : CodingMatrix) (n k r : Nat) (place : Nat → Nat) (values : Values) (w : World) : Prop :=
  ∀ key value, values key = some value → ValidKey key ∧ Splits k value ∧
    ∀ p < n, ∃ item, w (place p) (blockKey key p) = some item ∧ item.value = storedBlock V n k r value p

/-- A call of `memcached_set` that the code accepts. -/
def IsSet (k : Nat) (u : Update) : Prop :=
  ∃ key value expiration flags, u = .set key value expiration flags ∧ ValidKey key ∧ Splits k value

theorem Complete.putBlocks {n k r : Nat} {values : Values} {w : World} (h : Complete V n k r place values w)
    (hn : n ≤ maxNodes) {key : Key} (hkey : ValidKey key) {value : Block} (hval : Splits k value)
    (expiration flags : Nat) :
    Complete V n k r place (Function.update values key (some value))
      (World.putBlocks place key (storedItem V n k r value expiration flags) w n) := by
  have hn' : n ≤ 20 := hn
  intro key' value' hlast
  by_cases hk : key' = key
  · subst hk
    simp only [Function.update_self, Option.some.injEq] at hlast
    subst hlast
    exact ⟨hkey, hval, fun p hp => ⟨_, putBlocks_self (by omega) hp, rfl⟩⟩
  · rw [Function.update_of_ne hk] at hlast
    obtain ⟨hkey', hval', hblocks⟩ := h key' value' hlast
    refine ⟨hkey', hval', fun p hp => ?_⟩
    rw [putBlocks_of_ne]
    · exact hblocks p hp
    · rintro i hi ⟨-, he⟩
      exact hk (blockKey_inj (by omega) (by omega) he).1

theorem sets_complete (hE : Storing E view) (hV : FirstRowOnes V) (hp : Placed c place)
    (hs : Io.Synced c.serverCount c.io) (values : Values) (us : List Update)
    (hsets : ∀ u ∈ us, IsSet c.numberOfK u)
    (h : Complete V c.numberOfN c.numberOfK c.numberOfR place values (view x)) :
    ∃ io y, (Proc.each (Update.prog V) us).exec E c x = (.ok ((), { c with io := io }), y) ∧
      Io.Synced c.serverCount io ∧
      Complete V c.numberOfN c.numberOfK c.numberOfR place (lastValues values us) (view y) := by
  induction us generalizing c x values with
  | nil => exact ⟨c.io, x, rfl, hs, h⟩
  | cons u us ih =>
    obtain ⟨key, value, expiration, flags, rfl, hkey, hval⟩ := hsets u (by simp)
    obtain ⟨rc, io, y, hex, hs', hview⟩ := memcachedSet_stores (x := x) hE hp hs hV hkey.pos hkey.le hval
      expiration flags
    have hnew := h.putBlocks hp.small hkey hval expiration flags
    obtain ⟨io', z, hex', hs'', hz⟩ := ih (c := { c with io := io }) (x := y) (hp.io io) hs' _
      (fun u hu => hsets u (by simp [hu])) (fun key' value' hlast => by
        obtain ⟨hkey', hval', hblocks⟩ := hnew key' value' hlast
        refine ⟨hkey', hval', fun p hlt => ?_⟩
        rw [hview _ (hp.away p hlt)]
        exact hblocks p hlt)
    refine ⟨io', z, ?_, hs'', hz⟩
    rw [Proc.exec_each_cons, Update.prog, Proc.exec_bind_ok E c x (Proc.exec_bind_ok E c x hex)]
    exact hex'

end OptLrc.Gets
