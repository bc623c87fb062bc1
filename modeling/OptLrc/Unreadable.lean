import OptLrc.SecondFetch

namespace OptLrc.Unreadable

open OptLrc.Galois OptLrc.Memory OptLrc.Jerasure OptLrc.Encoder OptLrc.Stripe OptLrc.Split
open OptLrc.Process OptLrc.Memcached OptLrc.Exchange OptLrc.Storage OptLrc.Retrieval OptLrc.Sync
open OptLrc.Wire OptLrc.Core OptLrc.Fetch OptLrc.Lookup OptLrc.Stored OptLrc.Writes OptLrc.Updates
open OptLrc.Keys OptLrc.Contents OptLrc.Arrival OptLrc.Decode OptLrc.Rebuild OptLrc.Reads OptLrc.Gets
open OptLrc.Gather OptLrc.Degraded OptLrc.SecondFetch

variable {V : CodingMatrix} {j : Nat} {value : Block} {key : Key}
variable {σ : Type} {E : Env Request Reply σ} {view : σ → World} {c : Client} {x : σ}
  {place : Nat → Nat}

/-- The placement says nothing about positions past the last block. -/
def PlacesOnly (c : Client) : Prop := ∀ i, c.numberOfN ≤ i → ∃ e, c.node2rack.read i = .error e

theorem exec_mgetKey_io (m : Nat) (mode : Bool) (key : Key) {c' : Client} {y : σ}
    (h : (mgetKey m mode key).exec E c x = (.ok ((), c'), y)) : ∃ io, c' = { c with io := io } := by
  rw [mgetKey, Proc.exec_bind, Proc.exec_get] at h
  simp only [Proc.exec_bind] at h
  cases hroute : routeKey c m key with
  | error e => simp [hroute] at h
  | ok s =>
    rw [hroute, Proc.exec_lift_ok] at h
    by_cases hm : m = 1
    · simp only [hm, decide_true, exec_ioWritev_flush, exec_modifyConn, Prod.mk.injEq, Except.ok.injEq,
        true_and] at h
      exact ⟨_, h.1.symm⟩
    · simp only [hm, decide_false, exec_ioWritev, exec_modifyConn, Prod.mk.injEq, Except.ok.injEq,
        true_and] at h
      exact ⟨_, h.1.symm⟩

/-- A multi-get of a key that has no server. -/
theorem mget_faults (hp : Placed c place) (hs : Io.Synced c.serverCount c.io) {keys : List Key}
    (hkeys : ∀ key ∈ keys, memcachedKeyTest key = true) (hmem : key ∈ keys) {e : Fault}
    (herr : routeKey c keys.length key = .error e) : (memcachedMget keys).Faults E c x := by
  have hcount : c.serverCount ≠ 0 := by
    have := hp.core
    omega
  have hne : keys ≠ [] := List.ne_nil_of_mem hmem
  have hall : keys.all memcachedKeyTest = true := List.all_eq_true.mpr hkeys
  have hloop : ∀ io y, (Proc.each (mgetKey keys.length true) keys).Faults E { c with io := io } y := by
    intro io y
    refine Proc.faults_each (I := fun c' => ∃ io, c' = { c with io := io }) ?_ hmem ?_ ⟨io, rfl⟩
    · rintro a _ x' c' y' ⟨io, rfl⟩ h
      obtain ⟨io', rfl⟩ := exec_mgetKey_io _ _ _ h
      exact ⟨io', rfl⟩
    · rintro _ x' ⟨io, rfl⟩
      have herr' : routeKey { c with io := io } keys.length key = .error e := herr
      exact ⟨e, x', by simp only [mgetKey, Proc.exec_bind, Proc.exec_get, herr', Proc.exec_lift_error]⟩
  have hs' : Io.Synced c.serverCount (Client.resetResult c).io := ⟨hs.conn, hs.idle⟩
  obtain ⟨result, hd⟩ := drain_synced hs'
  have hd' : drain (Client.resetResult c).serverCount (Client.resetResult c).io = _ := hd
  obtain ⟨err, z, hex⟩ := hloop ⟨fun _ => .idle, result⟩ x
  refine ⟨err, z, ?_⟩
  simp only [memcachedMget, mgetByKeyReal, Proc.exec_bind, exec_initializeQuery E c x hcount, ne_eq,
    not_true_eq_false, if_false, hne, hall, Proc.exec_get, hd', Proc.exec_lift_ok, Proc.exec_modify,
    simpleBinaryMget]
  rw [show ({ Client.resetResult c with io := ⟨fun _ => .idle, result⟩ } : Client) =
    { c with io := ⟨fun _ => .idle, result⟩ } from rfl, hex]

/-- A key that names a position without a block has no server. -/
theorem routeKey_beyond (hp : Placed c place) (honly : PlacesOnly c) (key : Key) (count : Nat) {p : Nat}
    (hlt : p < 2560) (hle : c.numberOfN ≤ p) : ∃ e, routeKey c count (blockKey key p) = .error e := by
  obtain ⟨e, he⟩ := honly p hle
  have hnode : ∃ e, (suffixIndex (blockKey key p) >>= fun i => c.nodeServer i) = .error e := by
    rcases suffixIndex_blockKey_cases key hlt with h | ⟨e', h⟩
    · exact ⟨e, by rw [h, ok_bind, Client.nodeServer, he, error_bind]⟩
    · exact ⟨e', by rw [h, error_bind]⟩
  unfold routeKey
  split
  · exact hnode
  · rw [if_neg (by simp [hp.notCore])]
    exact hnode

section Asked

variable (hp : Placed c place) (hs : Io.Synced c.serverCount c.io) (hj : j < c.numberOfK) {done : List Nat}
  {st : Fetched} (hst : DataState c.numberOfK value done st) (hdone : ∀ s < c.numberOfK, s ∈ done ↔ s ≠ j)
include hp hs hj hst hdone

/-- The degraded path asks for a block that does not exist. -/
theorem repairData_beyond (honly : PlacesOnly c) (hkey : key.length ≤ 248) {i : Nat}
    (hi : i < askedCount c.numberOfN c.numberOfK c.numberOfR j)
    (hbeyond : c.numberOfN ≤ askedPosition c.numberOfR j i) : (repairData V key j st).Faults E c x := by
  obtain ⟨num, ptrs, -, hgather⟩ := exec_repairData_gather (V := V) (E := E) (x := x) key hp hj hst hdone
  obtain ⟨e, herr⟩ := routeKey_beyond (placed_failing hp hj) honly key
    (blockKeys key (askedPosition c.numberOfR j) (askedCount c.numberOfN c.numberOfK c.numberOfR j)).length
    (Nat.mod_lt _ (by omega)) hbeyond
  have hmem : blockKey key (askedPosition c.numberOfR j i) ∈ blockKeys key (askedPosition c.numberOfR j)
      (askedCount c.numberOfN c.numberOfK c.numberOfR j) :=
    List.mem_map.mpr ⟨i, List.mem_range.mpr hi, rfl⟩
  have hmget := mget_faults (E := E) (x := x) (placed_failing hp hj) hs (fun key' hkey' => by
    obtain ⟨i', -, rfl⟩ := List.mem_map.mp hkey'
    exact keyTest_blockKey hkey _) hmem herr
  obtain ⟨e', y, hex⟩ := hmget.bind _
  exact ⟨e', y, by rw [hgather, hex]⟩

variable (hE : Storing E view) (hnul : (0 : Byte) ∉ key) (hkey : key.length ≤ 248)
  (hint : Intact V c.numberOfN c.numberOfK c.numberOfR place key value (view x))
  (hpos : ∀ i < askedCount c.numberOfN c.numberOfK c.numberOfR j,
    askedPosition c.numberOfR j i < c.numberOfN)
include hE hnul hkey hint hpos

/-- The degraded path reads the last block of its second fetch past its end. -/
theorem repairData_short (hwhole : ¬ Whole c.numberOfN c.numberOfK c.numberOfR j value)
    (hthere : ∃ item, view x (place (askedPosition c.numberOfR j
      (askedCount c.numberOfN c.numberOfK c.numberOfR j - 1))) (blockKey key (askedPosition c.numberOfR j
        (askedCount c.numberOfN c.numberOfK c.numberOfR j - 1))) = some item) :
    (repairData V key j st).Faults E c x := by
  have hv := hp.valid
  obtain ⟨-, -, hle, -⟩ := group_of_data hv hj
  have hcount : 0 < askedCount c.numberOfN c.numberOfK c.numberOfR j := by
    unfold askedCount
    omega
  have hle' := askedCount_le hv hj
  have hsmall : c.numberOfN ≤ 20 := hp.small
  obtain ⟨num, ptrs, -, hgather⟩ := exec_repairData_gather (V := V) (E := E) (x := x) key hp hj hst hdone
  obtain ⟨io, order, hmget, hperm, hfetch⟩ := exec_mget_fetch (placed_failing hp hj) hpos (x := x) hE hs hkey
    hcount (storeParity key.length (groupCount c.numberOfN c.numberOfR (j / c.numberOfR) + 1)
      (askedCount c.numberOfN c.numberOfK c.numberOfR j) (determineBlockSizeRs value.length c.numberOfK)
      (blockKeys key (askedPosition c.numberOfR j) (askedCount c.numberOfN c.numberOfK c.numberOfR j)))
    ⟨ptrs, Cells.new 1, st.flags⟩
  obtain ⟨item, hitem⟩ := hthere
  have hmatch := matchKey_blockKey hnul (askedPosition c.numberOfR j)
    (fun t ht => by have := hpos t ht; omega)
    (fun a _ b _ h => askedPosition_inj (by omega) (by omega) h)
    (show askedCount c.numberOfN c.numberOfK c.numberOfR j - 1 < _ by omega)
  obtain ⟨hlast, hsize⟩ := Classical.not_imp.mp hwhole
  have hshort : item.value.length < determineBlockSizeRs value.length c.numberOfK := by
    have := lastSize_le hv.k_pos value
    rw [hint _ (hpos _ (by omega)) _ hitem, length_storedBlock _ _ hv.k_pos, if_pos hlast]
    unfold lastSize at hsize
    omega
  obtain ⟨e, hfold⟩ := foldlM_error (f := fun st a => storeParity key.length
      (groupCount c.numberOfN c.numberOfR (j / c.numberOfR) + 1)
      (askedCount c.numberOfN c.numberOfK c.numberOfR j) (determineBlockSizeRs value.length c.numberOfK)
      (blockKeys key (askedPosition c.numberOfR j) (askedCount c.numberOfN c.numberOfK c.numberOfR j)) st
        (arrival key (askedPosition c.numberOfR j) a)) (l := order)
    (a := (askedCount c.numberOfN c.numberOfK c.numberOfR j - 1, item))
    (hperm.mem_iff.mpr (mem_present.mpr ⟨by simp only; omega, hitem⟩)) (fun st => by
      simp only [storeParity, arrival, blockKeys, hmatch, ok_bind, if_true, hshort]
      exact ⟨_, rfl⟩) ⟨ptrs, Cells.new 1, st.flags⟩
  rcases hfetch with ⟨e', y, -, hex⟩ | ⟨st', io', y, -, -, hfold', -⟩
  · refine ⟨e', y, ?_⟩
    rw [hgather, Proc.exec_bind_ok E _ _ hmget, if_pos rfl]
    exact Proc.exec_bind_error E _ _ hex
  · rw [hfold] at hfold'
    cases hfold'

end Asked

/-- With two data blocks lost, the transfers of a get follow a pointer that was never set. -/
theorem crossData_faults {k fail s : Nat} {done : List Nat} {st : Fetched} (hst : DataState k value done st)
    (hs : s < k) (hne : s ≠ fail) (hmiss : s ∉ done) :
    (Proc.each (crossData key c.numberOfR fail st) (List.range k)).Faults E c x := by
  refine Proc.faults_each (I := fun _ => True) (fun _ _ _ _ _ _ _ => trivial) (List.mem_range.mpr hs)
    (fun c' x' _ => ?_) trivial
  have hread : st.subValues.read s = .error .uninitialised := by
    simp [Cells.read, hst.sub s hs, hmiss]
  rw [crossData, if_pos hne]
  exact (Proc.faults_lift _ hread).bind _

end OptLrc.Unreadable
