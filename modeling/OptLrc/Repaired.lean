import OptLrc.Rebuild

namespace OptLrc.Repaired

open OptLrc.Galois OptLrc.Memory OptLrc.Jerasure OptLrc.Encoder OptLrc.Stripe OptLrc.Process
open OptLrc.Memcached OptLrc.Exchange OptLrc.Storage OptLrc.Retrieval OptLrc.Repair OptLrc.Sync
open OptLrc.Wire OptLrc.Core OptLrc.Fetch OptLrc.Lookup OptLrc.Stored OptLrc.Writes OptLrc.Updates
open OptLrc.Keys OptLrc.Contents OptLrc.Arrival OptLrc.Decode OptLrc.Rebuild

variable {σ : Type} {E : Env Request Reply σ} {view : σ → World} {V : CodingMatrix} {c : Client} {x : σ}
  {place : Nat → Nat} {key : Key} {value : Block} {i e : Nat}

/-- The block to store again, when the other blocks of its group are there. -/
theorem exec_rebuild (hE : Storing E view) (hV : FirstRowOnes V) (hp : Placed c place)
    (hs : Io.Synced c.serverCount c.io) (hnul : (0 : Byte) ∉ key) (hkey : key.length ≤ 248)
    (hval : Splits c.numberOfK value)
    (hint : Intact V c.numberOfN c.numberOfK c.numberOfR place key value (view x))
    (hi : i < localGroupNumber c.numberOfN c.numberOfR) (he : e ≤ groupCount c.numberOfN c.numberOfR i)
    (hothers : ∀ j ≤ groupCount c.numberOfN c.numberOfR i, j ≠ e → ∃ item,
      view x (place (j + i * (c.numberOfR + 1))) (blockKey key (j + i * (c.numberOfR + 1))) = some item) :
    ∃ block size flags io y, (rebuild V key value.length (i * (c.numberOfR + 1) + e)).exec E c x =
        (.ok ((.success, some (block, size, flags)), { c with io := io }), y) ∧
      Io.Synced c.serverCount io ∧ SameStorage c.networkCoreServerKey (view y) (view x) ∧
      size ≤ block.length ∧ block.take size = storedBlock V c.numberOfN c.numberOfK c.numberOfR value
        (i * (c.numberOfR + 1) + e) := by
  have hv := hp.valid
  obtain ⟨io, y, io', z, done, st, hmget, hfetch, hs', hview, hst, hdone⟩ := exec_fetch_group (V := V) hE
    hp hs hnul hkey hi hval hint
  obtain ⟨coding, sub, block, sub', coding', hc, hd, hread, hblen, hdec, hres⟩ := decode_group hV hv hp.small
    hi hst he (fun j hj hne => (hdone j hj).mpr (hothers j hj hne))
  obtain ⟨num, hnum⟩ := exec_rebuild_eq (E := E) (V := V) (x := x) hp key value.length hi he
  obtain ⟨io'', y', hcross, hs'', hy⟩ : ∃ io'' y', (crossTimes (blockKey key
      (groupCount c.numberOfN c.numberOfR i + i * (c.numberOfR + 1))) coding st.blockSize num).exec E
      { c with io := io' } z = (.ok ((), { c with io := io'' }), y') ∧
      Io.Synced c.serverCount io'' ∧ CoreOnly E c.networkCoreServerKey z y' :=
    exec_crossTimes (Storing.replying hE) (hp.io io') hs' _ hread
      (Nat.le_of_eq hblen.symm) num
  refine ⟨groupBlock V c.numberOfN c.numberOfK c.numberOfR value i e,
    if i * (c.numberOfR + 1) + e = lastDataIndex c.numberOfK c.numberOfR then st.lastSize else st.blockSize,
    st.flags, io'', y', ?_, hs'', ?_, ?_, ?_⟩
  · have hlast : (i * (c.numberOfR + 1) + e = lastDataIndex c.numberOfK c.numberOfR ∧
        e ≠ groupCount c.numberOfN c.numberOfR i) =
        (i * (c.numberOfR + 1) + e = lastDataIndex c.numberOfK c.numberOfR) := by
      refine propext ⟨fun h => h.1, fun h => ⟨h, ?_⟩⟩
      rintro rfl
      exact not_isParity_last hv hi h
    rw [hnum]
    simp only [rebuildGroup, decodeGroup, Proc.exec_bind, hmget, if_true, hfetch, hc, hd, Proc.exec_lift_ok, hcross,
      hdec, hres, hlast, Proc.exec_pure]
  · rw [← hview]
    exact view_coreOnly hE hy
  · have := lastSize_le hv.k_pos value
    rw [hst.lastSize, hst.blockSize, groupBlock, length_fullBlock]
    split <;> omega
  · exact take_groupBlock hst.blockSize hst.lastSize

/-- Without one of the other blocks of its group, the repair follows a pointer that was never set. -/
theorem exec_rebuild_missing (hE : Storing E view) (hV : FirstRowOnes V) (hp : Placed c place)
    (hs : Io.Synced c.serverCount c.io) (hnul : (0 : Byte) ∉ key) (hkey : key.length ≤ 248)
    (hval : Splits c.numberOfK value)
    (hint : Intact V c.numberOfN c.numberOfK c.numberOfR place key value (view x))
    (hi : i < localGroupNumber c.numberOfN c.numberOfR) (he : e ≤ groupCount c.numberOfN c.numberOfR i)
    {j : Nat} (hj : j ≤ groupCount c.numberOfN c.numberOfR i) (hne : j ≠ e)
    (hmiss : view x (place (j + i * (c.numberOfR + 1))) (blockKey key (j + i * (c.numberOfR + 1))) = none) :
    ∃ err y, (rebuild V key value.length (i * (c.numberOfR + 1) + e)).exec E c x = (.error err, y) := by
  have hv := hp.valid
  obtain ⟨io, y, io', z, done, st, hmget, hfetch, hs', hview, hst, hdone⟩ := exec_fetch_group (V := V) hE
    hp hs hnul hkey hi hval hint
  have hmem : j ∉ done := by
    rw [hdone j hj, hmiss]
    simp
  obtain ⟨coding, sub, err, hc, hd, hblen, hdec⟩ := decode_group_missing hV hv hp.small hi hst he hj hne hmem
  obtain ⟨num, hnum⟩ := exec_rebuild_eq (E := E) (V := V) (x := x) hp key value.length hi he
  rw [hnum]
  simp only [rebuildGroup, decodeGroup, Proc.exec_bind, hmget, if_true, hfetch, hc, hd, Proc.exec_lift_ok]
  cases hcross : (crossTimes (blockKey key (groupCount c.numberOfN c.numberOfR i +
      i * (c.numberOfR + 1))) coding st.blockSize num).exec E { c with io := io' } z with
  | mk res y =>
    cases res with
    | error e => exact ⟨e, y, rfl⟩
    | ok a => exact ⟨err, y, by simp only [hdec, Proc.exec_lift_error]⟩

/-- The blocks of the local group of a position. -/
def GroupOthers (n r p : Nat) (P : Nat → Prop) : Prop := ∀ q < n, q / (r + 1) = p / (r + 1) → q ≠ p → P q

theorem groupOthers_iff {n r : Nat} (hr : 1 ≤ r) (hi : i < localGroupNumber n r) (he : e ≤ groupCount n r i)
    (P : Nat → Prop) :
    GroupOthers n r (i * (r + 1) + e) P ↔ ∀ j ≤ groupCount n r i, j ≠ e → P (j + i * (r + 1)) := by
  have hle := groupCount_le n r i
  constructor
  · intro h j hj hne
    have hlt := group_lt hr hi hj
    refine h _ (by omega) ?_ (by omega)
    rw [group_div (by omega), Nat.add_comm, group_div (by omega)]
  · intro h q hq hdiv hne
    obtain ⟨i', hi', j, hj, rfl⟩ := exists_position hr q hq
    have hle' := groupCount_le n r i'
    rw [group_div (by omega), group_div (by omega)] at hdiv
    subst hdiv
    rw [Nat.add_comm]
    exact h j hj (by omega)

section Repair

variable (hE : Storing E view) (hV : FirstRowOnes V) (hp : Placed c place)
  (hs : Io.Synced c.serverCount c.io) (hnul : (0 : Byte) ∉ key) (hkey : key.length ≤ 248)
  (hval : Splits c.numberOfK value)
  (hint : Intact V c.numberOfN c.numberOfK c.numberOfR place key value (view x)) {p : Nat}
  (hlt : p < c.numberOfN)
include hE hV hp hs hnul hkey hval hint hlt

/-- A repair stores the encoder's block again when the others of its group are there. -/
theorem memcachedRepair_stores (hothers : GroupOthers c.numberOfN c.numberOfR p
      (fun q => ∃ item, view x (place q) (blockKey key q) = some item)) :
    ∃ flags io y, (memcachedRepair V key value.length p).exec E c x =
        (.ok ((.success, flags), { c with failNodeIndex := p, numberOfB := 1, io := io }), y) ∧
      Io.Synced c.serverCount io ∧
      SameStorage c.networkCoreServerKey (view y) ((view x).put (place p) (blockKey key p)
        (some ⟨storedBlock V c.numberOfN c.numberOfK c.numberOfR value p, 0, 86400⟩)) := by
  obtain ⟨i, hi, e, he, rfl⟩ := exists_position hp.valid.r_pos p hlt
  rw [groupOthers_iff hp.valid.r_pos hi he] at hothers
  obtain ⟨block, size, flags, io, y, hex, hs', hview, hsize, hblock⟩ := exec_rebuild hE hV hp hs hnul hkey
    hval hint hi he hothers
  have hp' : Placed { c with failNodeIndex := i * (c.numberOfR + 1) + e, io := io } place :=
    (hp.failing hlt).io io
  obtain ⟨io', hback, hs''⟩ := exec_writeBack (x := y) (Storing.replying hE) hp' hs' V
    (keyTest_blockKey hkey (i * (c.numberOfR + 1) + e)) hsize
  refine ⟨flags, io', (E.serve (place (i * (c.numberOfR + 1) + e)) (.set
    (blockKey key (i * (c.numberOfR + 1) + e)) (block.take size) 0 86400) y).2, ?_, hs'', ?_⟩
  · simp only [memcachedRepair, Proc.exec_bind, hex, Proc.exec_modify]
    rw [hback]
    rfl
  · rw [hE.stores, hblock]
    exact hview.put _ _ _

theorem memcachedRepair_missing {q : Nat} (hq : q < c.numberOfN)
    (hgroup : q / (c.numberOfR + 1) = p / (c.numberOfR + 1)) (hne : q ≠ p)
    (hmiss : view x (place q) (blockKey key q) = none) :
    ∃ err y, (memcachedRepair V key value.length p).exec E c x = (.error err, y) := by
  obtain ⟨i, hi, e, he, rfl⟩ := exists_position hp.valid.r_pos p hlt
  obtain ⟨i', hi', j, hj, rfl⟩ := exists_position hp.valid.r_pos q hq
  have hle := groupCount_le c.numberOfN c.numberOfR i
  have hle' := groupCount_le c.numberOfN c.numberOfR i'
  rw [group_div (by omega), group_div (by omega)] at hgroup
  subst hgroup
  rw [Nat.add_comm] at hmiss
  obtain ⟨err, y, hex⟩ := exec_rebuild_missing hE hV hp hs hnul hkey hval hint hi he hj (by omega) hmiss
  exact ⟨err, y, by rw [memcachedRepair, Proc.exec_bind_error E c x hex]⟩

end Repair

end OptLrc.Repaired
