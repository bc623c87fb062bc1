import OptLrc.Core
import OptLrc.Split

namespace OptLrc.Stored

open OptLrc.Galois OptLrc.Memory OptLrc.Jerasure OptLrc.Encoder OptLrc.Stripe OptLrc.Split
open OptLrc.Process OptLrc.Memcached OptLrc.Exchange OptLrc.Rack OptLrc.Storage OptLrc.Sync
open OptLrc.Wire OptLrc.Core

/-- A client with a valid code and a loaded placement: block `i` belongs on server `place i`. -/
structure Placed (c : Client) (place : Nat → Nat) : Prop where
  loaded : c.rackIsAdd = true
  valid : Valid c.numberOfN c.numberOfK c.numberOfR
  small : c.numberOfN ≤ maxNodes
  b_pos : 0 < c.numberOfB
  notCore : c.isCore = false
  node : ∀ i < c.numberOfN, c.node2rack.read i = .ok (place i)
  server : ∀ i < c.numberOfN, place i < c.serverCount
  core : c.networkCoreServerKey < c.serverCount
  away : ∀ i < c.numberOfN, place i ≠ c.networkCoreServerKey
  rack : ∀ i < c.numberOfN, ∃ id, c.nodeRack.read i = .ok id
  fail : c.failNodeIndex < c.numberOfN

theorem Placed.io {c : Client} {place : Nat → Nat} (hp : Placed c place) (io : Io) :
    Placed { c with io := io } place :=
  ⟨hp.loaded, hp.valid, hp.small, hp.b_pos, hp.notCore, hp.node, hp.server, hp.core, hp.away, hp.rack,
    hp.fail⟩

theorem Placed.failing {c : Client} {place : Nat → Nat} (hp : Placed c place) {p : Nat} (hlt : p < c.numberOfN) :
    Placed { c with failNodeIndex := p } place :=
  ⟨hp.loaded, hp.valid, hp.small, hp.b_pos, hp.notCore, hp.node, hp.server, hp.core, hp.away, hp.rack, hlt⟩

theorem Placed.codeOn {c : Client} {place : Nat → Nat} (hp : Placed c place) :
    Placed { c with numberOfB := 1 } place :=
  ⟨hp.loaded, hp.valid, hp.small, Nat.one_pos, hp.notCore, hp.node, hp.server, hp.core, hp.away, hp.rack,
    hp.fail⟩

theorem Placed.nodeServer {c : Client} {place : Nat → Nat} (hp : Placed c place) {i : Nat}
    (hi : i < c.numberOfN) : c.nodeServer i = .ok (place i) := by
  rw [Client.nodeServer, hp.node i hi, ok_bind, Client.instance, if_pos (hp.server i hi)]

theorem Placed.lrcMode {c : Client} {place : Nat → Nat} (hp : Placed c place) : c.lrcMode = true := by
  have hk := hp.valid.k_pos
  have hr := hp.valid.r_pos
  have hf := hp.valid.fits
  have hb := hp.b_pos
  simp only [Client.lrcMode, hp.notCore, Bool.not_false, Bool.and_true, Bool.and_eq_true,
    decide_eq_true_eq]
  omega

/-- A client with one server for each block, and the core behind them. -/
def sampleClient (n k r : Nat) : Client where
  numberOfN := n
  numberOfK := k
  numberOfR := r
  numberOfB := 1
  numberOfRack := 1
  encodingScheme := 0
  rackIsAdd := true
  isCore := false
  networkCoreServerKey := n
  failNodeIndex := 0
  node2rack := (List.range maxNodes).map (fun i => if i < n then some i else none)
  nodeRack := (List.range maxNodes).map (fun i => if i < n then some 0 else none)
  rackGroup := []
  hosts := (List.range (n + 1)).map (fun i => ⟨[], i⟩)
  rackFile := []
  io := .idle

theorem placed_sampleClient {n k r : Nat} (hv : Valid n k r) (hn : n ≤ maxNodes) :
    Placed (sampleClient n k r) id where
  loaded := rfl
  valid := hv
  small := hn
  b_pos := Nat.one_pos
  notCore := rfl
  node i hi := by
    have hlt : i < n := hi
    have hmax : i < maxNodes := by omega
    exact Cells.read_eq (by simp [sampleClient, hlt, hmax])
  server i hi := by
    have : i < n := hi
    simp only [Client.serverCount, sampleClient, List.length_map, List.length_range, id_eq]
    omega
  core := by simp [Client.serverCount, sampleClient]
  away i hi := Nat.ne_of_lt hi
  rack i hi := by
    have hlt : i < n := hi
    have hmax : i < maxNodes := by omega
    exact ⟨0, Cells.read_eq (by simp [sampleClient, hlt, hmax])⟩
  fail := by
    have := hv.fits
    have := hv.k_pos
    change 0 < n
    omega

theorem synced_sampleClient (n k r : Nat) :
    Io.Synced (sampleClient n k r).serverCount (sampleClient n k r).io :=
  ⟨fun _ => synced_idle, fun _ _ => rfl⟩

/-- Block `i` of the stripe of a value, before the last data block is cut to its real size. -/
def fullBlock (V : CodingMatrix) (n k r : Nat) (value : Block) (i : Nat) : Block :=
  let size := determineBlockSizeRs value.length k
  stripeBlock n r size (sourceBlock (V k (globalNumber n k r)) k size (dataBlock size value)) i

/-- The block `i` that the encoder stores for a value. -/
def storedBlock (V : CodingMatrix) (n k r : Nat) (value : Block) (i : Nat) : Block :=
  let size := determineBlockSizeRs value.length k
  if i = lastDataIndex k r then (fullBlock V n k r value i).take (value.length - size * (k - 1))
  else fullBlock V n k r value i

/-- A value that fits in memory and reaches its last data block. -/
structure Splits (k : Nat) (value : Block) : Prop where
  reaches : determineBlockSizeRs value.length k * (k - 1) ≤ value.length
  fits : value.length < 2 ^ 63

/-- The bytes of the last data block. -/
theorem lastSize_le {k : Nat} (hk : 1 ≤ k) (value : Block) :
    value.length - determineBlockSizeRs value.length k * (k - 1) ≤
      determineBlockSizeRs value.length k := by
  have hle := le_mul_determineBlockSizeRs value.length hk
  obtain ⟨m, rfl⟩ : ∃ m, k = m + 1 := ⟨k - 1, by omega⟩
  generalize determineBlockSizeRs value.length (m + 1) = size at hle
  have e : (m + 1) * size = size * m + size := by ring
  rw [Nat.add_sub_cancel]
  omega

section Blocks

variable {V : CodingMatrix} {n k r : Nat}

theorem lastDataIndex_eq (hk : 1 ≤ k) : lastDataIndex k r = position r (k - 1) := by
  unfold lastDataIndex position
  generalize (k - 1) / r = q
  omega

theorem fullBlock_data (hv : Valid n k r) (value : Block) {s : Nat} (hs : s < k) :
    fullBlock V n k r value (position r s) = dataBlock (determineBlockSizeRs value.length k) value s := by
  simp only [fullBlock]
  rw [stripeBlock_position hv.r_pos s (data_lt hv hs), sourceBlock, if_pos hs]

/-- The coding rows of the local parities. -/
theorem localOnes (hV : FirstRowOnes V) (hn : n ≤ maxNodes) :
    ∀ count ≤ n, ∀ j < count, V count 1 0 j = 1 := by
  intro count hc j hj
  unfold maxNodes at hn
  exact hV count 1 j (by omega) (by omega) hj

theorem allBlocks_stored (hV : FirstRowOnes V) (hv : Valid n k r) (hn : n ≤ maxNodes) (value : Block) :
    allBlocks V n k r (determineBlockSizeRs value.length k)
      ((List.range k).map (fun i => some (dataBlock (determineBlockSizeRs value.length k) value i))) =
      .ok ((List.range n).map (fun i => some (fullBlock V n k r value i))) := by
  rw [allBlocks_eq_allBlocksWith]
  refine allBlocksWith_eq _ hv (dvd_determineBlockSizeRs _ hv.k_pos)
    (fun count hc => localOnes hV hn count hc.le) (fun s hs => ?_) (fun s _ => length_dataBlock _ _ _)
  simp [hs]

end Blocks

section Shape

variable {n k r : Nat}

theorem two_le_n (hv : Valid n k r) : 2 ≤ n := by
  have hk := hv.k_pos
  have hf := hv.fits
  have hr := hv.r_pos
  have hL : 0 < localGroupNumber n r := (lt_localGroupNumber_iff 0).mpr (by omega)
  omega

theorem transferStep_ok {nodeRack : Cells Nat} {i : Nat} (h : ∃ id, nodeRack.read i = .ok id)
    (st : Nat × Bool × List Nat) :
    ∃ st', transferStep n r nodeRack st i = .ok st' ∧
      (st'.2.2 = st.2.2 ++ [i] ∨ ((i + 1) % (r + 1) = 0 ∨ i + 1 = n) ∧ st'.2.2 = st.2.2) := by
  obtain ⟨id, hid⟩ := h
  unfold transferStep
  simp only [hid, ok_bind]
  generalize (if i % (r + 1) = 0 then id else st.1) = firstRack
  generalize (st.2.1 || decide (firstRack ≠ id)) = crossRack
  by_cases hp : (i + 1) % (r + 1) ≠ 0 ∧ i + 1 ≠ n
  · rw [if_pos hp]
    exact ⟨(firstRack, crossRack, st.2.2 ++ [i]), rfl, Or.inl rfl⟩
  · rw [if_neg hp]
    cases crossRack with
    | true => exact ⟨(firstRack, true, st.2.2 ++ [i]), rfl, Or.inl rfl⟩
    | false => exact ⟨(firstRack, false, st.2.2), rfl, Or.inr ⟨by omega, rfl⟩⟩

/-- Block 0 always goes through the core. -/
theorem transferList_ok (hv : Valid n k r) (scheme : Nat) {nodeRack : Cells Nat}
    (h : ∀ i < n, ∃ id, nodeRack.read i = .ok id) :
    ∃ l, transferList n r scheme nodeRack = .ok l ∧ l ≠ [] ∧ ∀ i ∈ l, i < n := by
  have hn := two_le_n hv
  have hr := hv.r_pos
  have hfirst : (0 + 1) % (r + 1) ≠ 0 := by
    rw [Nat.mod_eq_of_lt (by omega)]
    omega
  have hrun : ∀ first, ∀ m ≤ n, ∃ st, (List.range m).foldlM (transferStep n r nodeRack)
      (first, false, []) = .ok st ∧ (0 < m → st.2.2 ≠ []) ∧ ∀ i ∈ st.2.2, i < m := by
    intro first m hm
    induction m with
    | zero => exact ⟨_, rfl, by omega, by simp⟩
    | succ m ih =>
      obtain ⟨st, he, hne, hlt⟩ := ih (by omega)
      obtain ⟨st', he', hst⟩ := transferStep_ok (n := n) (r := r) (h m (by omega)) st
      refine ⟨st', ?_, fun _ => ?_, fun i hi => ?_⟩
      · rw [List.range_succ, List.foldlM_append, he, ok_bind, List.foldlM_cons, he', ok_bind]
        rfl
      · rcases hst with hst | ⟨hp, hst⟩
        · simp [hst]
        · rw [hst]
          refine hne ?_
          by_contra h0
          have : m = 0 := by omega
          subst this
          omega
      · rcases hst with hst | ⟨-, hst⟩
        · rw [hst, List.mem_append, List.mem_singleton] at hi
          rcases hi with hi | rfl
          · have := hlt i hi
            omega
          · omega
        · rw [hst] at hi
          have := hlt i hi
          omega
  obtain ⟨first, hf⟩ := h 0 (by omega)
  unfold transferList
  simp only [hf, ok_bind]
  split
  · obtain ⟨st, he, hne, hlt⟩ := hrun first n le_rfl
    exact ⟨st.2.2, by rw [he]; rfl, hne (by omega), hlt⟩
  · exact ⟨_, rfl, by simp; omega, fun i hi => List.mem_range.mp hi⟩

end Shape

end OptLrc.Stored
