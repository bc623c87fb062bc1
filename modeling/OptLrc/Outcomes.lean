import OptLrc.Losses

namespace OptLrc.Outcomes

open OptLrc.Galois OptLrc.Memory OptLrc.Jerasure OptLrc.Encoder OptLrc.Stripe OptLrc.Split
open OptLrc.Process OptLrc.Memcached OptLrc.Exchange OptLrc.Storage OptLrc.Retrieval OptLrc.Sync
open OptLrc.Wire OptLrc.Core OptLrc.Fetch OptLrc.Lookup OptLrc.Stored OptLrc.Writes OptLrc.Updates
open OptLrc.Keys OptLrc.Contents OptLrc.Arrival OptLrc.Decode OptLrc.Rebuild OptLrc.Reads OptLrc.Gets
open OptLrc.Gather OptLrc.Degraded OptLrc.SecondFetch OptLrc.Unreadable OptLrc.Losses

variable {V : CodingMatrix} {j : Nat} {value : Block} {key : Key}
variable {σ : Type} {E : Env Request Reply σ} {view : σ → World} {c : Client} {x : σ}
  {place : Nat → Nat}

/-- What the servers see of a get that repairs data block `j`: the first fetch, the transfers
of the other blocks, the second fetch, the transfers of the parity, and the write-back. -/
def DegradedTrace (E : Env Request Reply σ) (c : Client) (place : Nat → Nat) (key : Key) (j : Nat)
    (bytes : Block) (x final : σ) : Prop :=
  ∃ y1 y2 y3 y4,
    E.Picks (mgetState E (blockRoute place) (blockKeys key (position c.numberOfR) c.numberOfK) x
      c.serverCount) y1 ∧
    CoreOnly E c.networkCoreServerKey y1 y2 ∧
    E.Picks (mgetState E (blockRoute place) (blockKeys key (askedPosition c.numberOfR j)
      (askedCount c.numberOfN c.numberOfK c.numberOfR j)) y2 c.serverCount) y3 ∧
    CoreOnly E c.networkCoreServerKey y3 y4 ∧
    final = (E.serve (place (position c.numberOfR j)) (.set (blockKey key (position c.numberOfR j)) bytes
      0 86400) y4).2

/-- The blocks that the second fetch asks for exist, are there, and can be read. -/
structure Answered (c : Client) (place : Nat → Nat) (key : Key) (value : Block) (j : Nat) (w : World) :
    Prop where
  lt : ∀ i < askedCount c.numberOfN c.numberOfK c.numberOfR j, askedPosition c.numberOfR j i < c.numberOfN
  there : ∀ i < askedCount c.numberOfN c.numberOfK c.numberOfR j, ∃ item,
    w (place (askedPosition c.numberOfR j i)) (blockKey key (askedPosition c.numberOfR j i)) = some item
  whole : Whole c.numberOfN c.numberOfK c.numberOfR j value

theorem intactData {n k r : Nat} {w : World} (h : Intact V n k r place key value w) (hv : Valid n k r) :
    IntactData V n k r place key value w := fun _ hs item hitem => h _ (position_lt hv hs) item hitem

section Get

variable (hE : Storing E view) (hV : FirstRowOnes V) (hp : Placed c place)
  (hs : Io.Synced c.serverCount c.io) (hnul : (0 : Byte) ∉ key) (hkey : key.length ≤ 248)
  (hval : Splits c.numberOfK value)
  (hint : Intact V c.numberOfN c.numberOfK c.numberOfR place key value (view x))
include hE hp hs hnul hkey hval hint

/-- Two lost data blocks are too many. -/
theorem memcachedGet_two_lost {a b : Nat} (ha : a < c.numberOfK) (hb : b < c.numberOfK) (hab : a ≠ b)
    (hmissa : ¬ HasData (view x) place key c.numberOfR a) (hmissb : ¬ HasData (view x) place key c.numberOfR b) :
    (memcachedGet V key value.length).Faults E c x := by
  obtain ⟨io, io', z, done, st, hmget, hfetch, -, -, -, hst, hdone, -⟩ := exec_fetch_data (V := V) hE hp hs
    hnul hkey hval (intactData hint hp.valid)
  have hcross : (Proc.each (crossData key c.numberOfR (failIndex c.numberOfN st.nodeFail) st)
      (List.range c.numberOfK)).Faults E { c with io := io' } z := by
    by_cases h : a = failIndex c.numberOfN st.nodeFail
    · exact crossData_faults (c := { c with io := io' }) hst hb (fun h' => hab (h.trans h'.symm))
        ((hdone b hb).not.mpr hmissb)
    · exact crossData_faults (c := { c with io := io' }) hst ha h ((hdone a ha).not.mpr hmissa)
  obtain ⟨e, y, hex⟩ := hcross.bind _
  refine ⟨e, y, ?_⟩
  rw [exec_memcachedGet hp, Proc.exec_bind_ok E c x hmget, if_pos rfl, Proc.exec_bind_ok E _ _ hfetch]
  exact hex

variable (hj : j < c.numberOfK)
  (hmiss : ∀ s < c.numberOfK, HasData (view x) place key c.numberOfR s ↔ s ≠ j)
include hj hmiss

/-- A get with one data block lost comes to the degraded path. -/
theorem exec_memcachedGet_lost : ∃ io done st z y, DataState c.numberOfK value done st ∧
    (∀ s < c.numberOfK, s ∈ done ↔ s ≠ j) ∧ Io.Synced c.serverCount io ∧
    E.Picks (mgetState E (blockRoute place) (blockKeys key (position c.numberOfR) c.numberOfK) x
      c.serverCount) z ∧
    CoreOnly E c.networkCoreServerKey z y ∧ SameStorage c.networkCoreServerKey (view y) (view x) ∧
    (memcachedGet V key value.length).exec E c x = (do
      let st ← repairData V key j st
      let result ← Proc.lift (reassemble c.numberOfK value.length st)
      return ⟨some result, value.length, .success, st.flags⟩ : Prog GetResult).exec E { c with io := io } y := by
  obtain ⟨io, io', z, done, st, hmget, hfetch, hs', hpicks, hview, hst, hdone, -⟩ := exec_fetch_data (V := V) hE
    hp hs hnul hkey hval (intactData hint hp.valid)
  have hmem : ∀ s < c.numberOfK, s ∈ done ↔ s ≠ j := fun s hs => (hdone s hs).trans (hmiss s hs)
  have hfail := failIndex_lost hst hj hmem c.numberOfN
  have hne : j ≠ c.numberOfN := by
    have := hp.valid.fits
    omega
  obtain ⟨io'', y, hcross, hs'', hy⟩ : ∃ io'' y,
      (Proc.each (crossData key c.numberOfR j st) (List.range c.numberOfK)).exec E { c with io := io' } z =
        (.ok ((), { c with io := io'' }), y) ∧
      Io.Synced c.serverCount io'' ∧ CoreOnly E c.networkCoreServerKey z y :=
    exec_crossData (Storing.replying hE) (hp.io io') hs' hst (fun s hs hne => (hmem s hs).mpr hne)
  refine ⟨io'', done, st, z, y, hst, hmem, hs'', hpicks, hy, ?_, ?_⟩
  · rw [← hview]
    exact view_coreOnly hE hy
  · rw [exec_memcachedGet hp, Proc.exec_bind_ok E c x hmget, if_pos rfl, Proc.exec_bind_ok E _ _ hfetch]
    simp only [hfail]
    rw [Proc.exec_bind_ok E _ _ hcross, if_pos hne]

/-- The degraded path, when the blocks that it asks for are there. -/
theorem memcachedGet_degraded (hV : FirstRowOnes V) (hans : Answered c place key value j (view x)) :
    ∃ flags io y, (memcachedGet V key value.length).exec E c x =
        (.ok (⟨some ((patched c.numberOfK value j (decodedBytes V c.numberOfN c.numberOfK c.numberOfR value
          j)).map some), value.length, .success, flags⟩,
          { c with failNodeIndex := position c.numberOfR j, numberOfB := 1, io := io }), y) ∧
      DegradedTrace E c place key j (decodedBytes V c.numberOfN c.numberOfK c.numberOfR value j) x y ∧
      SameStorage c.networkCoreServerKey (view y) ((view x).put (place (position c.numberOfR j))
        (blockKey key (position c.numberOfR j))
        (some ⟨decodedBytes V c.numberOfN c.numberOfK c.numberOfR value j, 0, 86400⟩)) := by
  obtain ⟨io, done, st, z, y, hst, hdone, hs', hz, hy, hview, hget⟩ := exec_memcachedGet_lost hE hp hs hnul
    hkey hval hint hj hmiss
  have hsame : ∀ p < c.numberOfN, view y (place p) = view x (place p) := fun p hlt =>
    hview _ (hp.away p hlt)
  obtain ⟨flags, io', y', z', hrep, -, hy', hz'⟩ := exec_repairData (x := y) hE (hp.io io) hs' hnul hkey hj
    (fun p hlt item hitem => hint p hlt item (by rw [← hsame p hlt]; exact hitem)) hans.lt (fun _ => hans.whole) hV hst
    hdone (fun i hi => by
      simp only [hsame _ (hans.lt i hi)]
      exact hans.there i hi)
  have hre := reassemble_patched hp.valid.k_pos hval hj hst hdone
    (length_decodedBlock V c.numberOfN c.numberOfK c.numberOfR value j) flags
  refine ⟨flags, io', _, ?_, ⟨z, y, y', z', hz, hy, hy', hz', rfl⟩, ?_⟩
  · rw [hget, Proc.exec_bind_ok E _ _ hrep]
    simp only [Proc.exec_bind, hre, Proc.exec_lift_ok, Proc.exec_pure]
    rfl
  · rw [hE.stores]
    refine SameStorage.put ?_ _ _ _
    have h1 : view y' = view y := by rw [view_picks hE hy', view_mgetState hE]
    rw [← h1] at hview
    exact (view_coreOnly hE hz').trans hview

/-- The degraded path, when one of the blocks that it asks for is not there. -/
theorem memcachedGet_unanswered (hV : FirstRowOnes V) (honly : PlacesOnly c)
    (hans : ¬ Answered c place key value j (view x)) : (memcachedGet V key value.length).Faults E c x := by
  obtain ⟨io, done, st, z, y, hst, hdone, hs', -, -, hview, hget⟩ := exec_memcachedGet_lost hE hp hs hnul
    hkey hval hint hj hmiss
  have hsame : ∀ p < c.numberOfN, view y (place p) = view x (place p) := fun p hlt =>
    hview _ (hp.away p hlt)
  have hint' : Intact V c.numberOfN c.numberOfK c.numberOfR place key value (view y) :=
    fun p hlt item hitem => hint p hlt item (by rw [← hsame p hlt]; exact hitem)
  have hrep : (repairData V key j st).Faults E { c with io := io } y := by
    by_cases hlt : ∀ i < askedCount c.numberOfN c.numberOfK c.numberOfR j,
        askedPosition c.numberOfR j i < c.numberOfN
    · have hcount : 0 < askedCount c.numberOfN c.numberOfK c.numberOfR j := by
        obtain ⟨-, -, hle, -⟩ := group_of_data hp.valid hj
        unfold askedCount
        omega
      have hlast := hsame _ (hlt _ (Nat.sub_lt hcount Nat.one_pos))
      by_cases hwhole : (∃ item, view x (place (askedPosition c.numberOfR j
          (askedCount c.numberOfN c.numberOfK c.numberOfR j - 1))) (blockKey key (askedPosition c.numberOfR j
            (askedCount c.numberOfN c.numberOfK c.numberOfR j - 1))) = some item) →
          Whole c.numberOfN c.numberOfK c.numberOfR j value
      · obtain ⟨i, hi, hnone⟩ : ∃ i < askedCount c.numberOfN c.numberOfK c.numberOfR j, ∀ item,
            view x (place (askedPosition c.numberOfR j i)) (blockKey key (askedPosition c.numberOfR j i)) ≠
              some item := by
          by_contra hall
          push Not at hall
          exact hans ⟨hlt, hall, hwhole (hall _ (Nat.sub_lt hcount Nat.one_pos))⟩
        refine repairData_missing hE (hp.io io) hs' hnul hkey hj hint' hlt ?_ hV hst hdone hi ?_
        · simp only [hlast]
          exact hwhole
        · simp only [hsame _ (hlt i hi)]
          exact Option.eq_none_iff_forall_ne_some.mpr hnone
      · obtain ⟨hthere, hshort⟩ := Classical.not_imp.mp hwhole
        refine repairData_short (hp.io io) hs' hj hst hdone hE hnul hkey hint' hlt hshort ?_
        simp only [hlast]
        exact hthere
    · push Not at hlt
      obtain ⟨i, hi, hbeyond⟩ := hlt
      exact repairData_beyond (hp.io io) hs' hj hst hdone honly hkey hi hbeyond
  obtain ⟨e, y', hex⟩ := hrep.bind _
  exact ⟨e, y', by rw [hget]; exact hex⟩

end Get

end OptLrc.Outcomes
