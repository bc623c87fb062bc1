import OptLrc.Degraded

namespace OptLrc.SecondFetch

open OptLrc.Galois OptLrc.Memory OptLrc.Jerasure OptLrc.Encoder OptLrc.Stripe OptLrc.Split
open OptLrc.Process OptLrc.Memcached OptLrc.Exchange OptLrc.Storage OptLrc.Retrieval OptLrc.Sync
open OptLrc.Wire OptLrc.Core OptLrc.Fetch OptLrc.Lookup OptLrc.Stored OptLrc.Writes OptLrc.Updates
open OptLrc.Keys OptLrc.Contents OptLrc.Arrival OptLrc.Decode OptLrc.Rebuild OptLrc.Reads OptLrc.Gets
open OptLrc.Gather OptLrc.Degraded

variable {V : CodingMatrix} {j : Nat} {value : Block} {key : Key}

variable {σ : Type} {E : Env Request Reply σ} {view : σ → World} {c : Client} {x : σ}
  {place : Nat → Nat} (hE : Storing E view) (hp : Placed c place) (hs : Io.Synced c.serverCount c.io)
  (hnul : (0 : Byte) ∉ key) (hkey : key.length ≤ 248) (hj : j < c.numberOfK)
  (hint : Intact V c.numberOfN c.numberOfK c.numberOfR place key value (view x))
  (hpos : ∀ i < askedCount c.numberOfN c.numberOfK c.numberOfR j,
    askedPosition c.numberOfR j i < c.numberOfN)
  (hwhole : (∃ item, view x (place (askedPosition c.numberOfR j
      (askedCount c.numberOfN c.numberOfK c.numberOfR j - 1))) (blockKey key (askedPosition c.numberOfR j
        (askedCount c.numberOfN c.numberOfK c.numberOfR j - 1))) = some item) →
    Whole c.numberOfN c.numberOfK c.numberOfR j value)
include hE hp hs hnul hkey hj hint hpos hwhole

/-- The second fetch. -/
theorem exec_fetch_asked {cells : Nat → Option Block} {decoding : Decoding}
    (hst : AskedState V c.numberOfN c.numberOfK c.numberOfR j value cells [] decoding) :
    ∃ io io' y asked decoding',
      (memcachedMget (blockKeys key (askedPosition c.numberOfR j)
        (askedCount c.numberOfN c.numberOfK c.numberOfR j))).exec E c x =
          (.ok (.success, { c with io := io }), mgetState E (blockRoute place) (blockKeys key
            (askedPosition c.numberOfR j) (askedCount c.numberOfN c.numberOfK c.numberOfR j)) x
            c.serverCount) ∧
      (fetchEach (storeParity key.length (groupCount c.numberOfN c.numberOfR (j / c.numberOfR) + 1)
        (askedCount c.numberOfN c.numberOfK c.numberOfR j) (determineBlockSizeRs value.length c.numberOfK)
        (blockKeys key (askedPosition c.numberOfR j) (askedCount c.numberOfN c.numberOfK c.numberOfR j)))
        (askedCount c.numberOfN c.numberOfK c.numberOfR j) decoding).exec E { c with io := io }
          (mgetState E (blockRoute place) (blockKeys key (askedPosition c.numberOfR j)
            (askedCount c.numberOfN c.numberOfK c.numberOfR j)) x c.serverCount) =
          (.ok (decoding', { c with io := io' }), y) ∧
      Io.Synced c.serverCount io' ∧ E.Picks (mgetState E (blockRoute place) (blockKeys key
        (askedPosition c.numberOfR j) (askedCount c.numberOfN c.numberOfK c.numberOfR j)) x
        c.serverCount) y ∧
      AskedState V c.numberOfN c.numberOfK c.numberOfR j value cells asked decoding' ∧
      ∀ i < askedCount c.numberOfN c.numberOfK c.numberOfR j, i ∈ asked ↔
        ∃ item, view x (place (askedPosition c.numberOfR j i))
          (blockKey key (askedPosition c.numberOfR j i)) = some item := by
  have hv := hp.valid
  obtain ⟨-, -, hle, -⟩ := group_of_data hv hj
  obtain ⟨io, io', z, asked, decoding', h⟩ := exec_fetch_invariant hp hpos (x := x) hE hs hkey
    (show 0 < askedCount c.numberOfN c.numberOfK c.numberOfR j by unfold askedCount; omega) _ _ hst
    (fun done st i item hi hitem hst => storeParity_eq hv hp.small hnul hj hpos hst hi
      (fun h => hwhole ⟨item, by rw [← h]; exact hitem⟩) (hint _ (hpos i hi) item hitem))
  exact ⟨io, io', z, asked, decoding', h⟩

variable (hV : FirstRowOnes V) {done : List Nat} {st : Fetched}
  (hst : DataState c.numberOfK value done st) (hdone : ∀ s < c.numberOfK, s ∈ done ↔ s ≠ j)
include hV hst hdone

/-- The degraded path, when the blocks that it asks for are there: it keeps what it decodes, and
writes it back. -/
theorem exec_repairData (hall : ∀ i < askedCount c.numberOfN c.numberOfK c.numberOfR j,
      ∃ item, view x (place (askedPosition c.numberOfR j i))
        (blockKey key (askedPosition c.numberOfR j i)) = some item) :
    ∃ flags io y z, (repairData V key j st).exec E c x =
        (.ok ({ st with
          subValues := st.subValues.set j (some (decodedBlock V c.numberOfN c.numberOfK c.numberOfR value j))
          flags := flags },
          { c with failNodeIndex := position c.numberOfR j, numberOfB := 1, io := io }),
          (E.serve (place (position c.numberOfR j)) (.set (blockKey key (position c.numberOfR j))
            ((decodedBlock V c.numberOfN c.numberOfK c.numberOfR value j).take
              (storedSize c.numberOfK value j)) 0 86400) z).2) ∧
      Io.Synced c.serverCount io ∧
      E.Picks (mgetState E (blockRoute place) (blockKeys key (askedPosition c.numberOfR j)
        (askedCount c.numberOfN c.numberOfK c.numberOfR j)) x c.serverCount) y ∧
      CoreOnly E c.networkCoreServerKey y z := by
  obtain ⟨num, ptrs, hask, hgather⟩ := exec_repairData_gather (V := V) (E := E) (x := x) key hp hj
    hst hdone
  obtain ⟨io, io', y, asked, decoding, hmget, hfetch, hs', hpicks, hask', hmem⟩ := exec_fetch_asked
    (c := { c with failNodeIndex := position c.numberOfR j }) (x := x) hE (placed_failing hp hj) hs hnul hkey
    hj hint hpos hwhole hask
  obtain ⟨io2, z, hstore, hs2, hz⟩ := exec_storeDecoded (x := y) hV hj hst hdone hask' num
    (Storing.replying hE) hp hs' hkey (fun i hi => (hmem i hi).mpr (hall i hi))
  refine ⟨decoding.flags, io2, y, z, ?_, hs2, hpicks, hz⟩
  rw [hgather, Proc.exec_bind_ok E _ _ hmget, if_pos rfl, Proc.exec_bind_ok E _ _ hfetch]
  exact hstore

theorem repairData_missing {i : Nat} (hi : i < askedCount c.numberOfN c.numberOfK c.numberOfR j)
    (hmiss : view x (place (askedPosition c.numberOfR j i))
      (blockKey key (askedPosition c.numberOfR j i)) = none) :
    (repairData V key j st).Faults E c x := by
  obtain ⟨num, ptrs, hask, hgather⟩ := exec_repairData_gather (V := V) (E := E) (x := x) key hp hj
    hst hdone
  obtain ⟨io, io', y, asked, decoding, hmget, hfetch, hs', hpicks, hask', hmem⟩ := exec_fetch_asked
    (c := { c with failNodeIndex := position c.numberOfR j }) (x := x) hE (placed_failing hp hj) hs hnul hkey
    hj hint hpos hwhole hask
  obtain ⟨err, z, herr⟩ := storeDecoded_missing (E := E) (x := y) hV hj hst hask' num key hp
    ⟨i, hi, fun h => by
      obtain ⟨item, hitem⟩ := (hmem i hi).mp h
      rw [hmiss] at hitem
      cases hitem⟩ (fun h => (hdone j hj).mp h rfl)
    (st.subValues.set j (some (zeroBlock (determineBlockSizeRs value.length c.numberOfK))))
    { c with failNodeIndex := position c.numberOfR j, io := io' }
  refine ⟨err, z, ?_⟩
  rw [hgather, Proc.exec_bind_ok E _ _ hmget, if_pos rfl, Proc.exec_bind_ok E _ _ hfetch]
  exact herr

end OptLrc.SecondFetch
