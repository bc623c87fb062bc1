import OptLrc.Arrival
import OptLrc.Traffic

namespace OptLrc.BlockKeys

open OptLrc.Galois OptLrc.Memory OptLrc.Encoder OptLrc.Stripe OptLrc.Memcached OptLrc.Exchange
open OptLrc.Retrieval OptLrc.Keys OptLrc.Writes OptLrc.Arrival OptLrc.Traffic

/-- The block keys of an object pass the key test and name their servers, and in whatever order
the replies come, the get and the repair take each of them for the block that it is. -/
structure Sound (n k r : Nat) (key : Key) : Prop where
  admitted : ∀ i < n, memcachedKeyTest (blockKey key i) = true
  suffix : ∀ i < n, suffixIndex (blockKey key i) = .ok i
  get : ∀ order : List Nat, (∀ s ∈ order, s < k ∧ position r s < n) →
    order.mapM (fun s => matchKey key.length (blockKeys key (position r) k) (blockKey key (position r s))) =
      .ok order
  repair : ∀ p < n, ∀ order : List Nat, (∀ j ∈ order, j < groupNumber n r p) →
    order.mapM (fun j => matchKey key.length (blockKeys key (· + groupStart r p) (groupNumber n r p))
      (blockKey key (j + groupStart r p))) = .ok order

theorem mapM_ok {f : Nat → Except Fault Nat} {order : List Nat} (h : ∀ s ∈ order, f s = .ok s) :
    order.mapM f = .ok order := by
  induction order with
  | nil => rfl
  | cons s order ih =>
    rw [List.mapM_cons, h s (by simp), ok_bind, ih (fun t ht => h t (by simp [ht])), ok_bind, pure_eq_ok]

variable {n k r : Nat} {key : Key}

theorem matchKey_get (hn : n ≤ maxNodes) (hnul : (0 : Byte) ∉ key) {s : Nat} (hs : s < k)
    (hpos : position r s < n) :
    matchKey key.length (blockKeys key (position r) k) (blockKey key (position r s)) = .ok s := by
  have hn' : n ≤ 20 := hn
  apply matchKey_first hnul (position r) hs
  · intro j hj
    rcases Nat.lt_or_eq_of_le hj with h | rfl
    · have := position_strictMono r h
      omega
    · omega
  · intro j hj
    exact Nat.ne_of_lt (position_strictMono r hj)

theorem matchKey_repair (hn : n ≤ maxNodes) (hnul : (0 : Byte) ∉ key) {p : Nat} {j : Nat}
    (hj : j < groupNumber n r p) :
    matchKey key.length (blockKeys key (· + groupStart r p) (groupNumber n r p))
      (blockKey key (j + groupStart r p)) = .ok j := by
  have hn' : n ≤ 20 := hn
  have hlt := (mem_group_iff (n := n) (r := r) (p := p) (j + groupStart r p)).mpr ⟨by omega, by omega⟩
  apply matchKey_first hnul (· + groupStart r p) hj
  · intro i hi
    omega
  · intro i hi he
    change i + groupStart r p = j + groupStart r p at he
    omega

theorem two_le_groupNumber (hn : 2 ≤ n) (hr : 1 ≤ r) : 2 ≤ groupNumber n r 0 := by
  simp only [groupNumber, groupStart, Nat.zero_div, Nat.zero_mul, Nat.zero_add, Nat.mul_one, Nat.sub_zero]
  split <;> omega

/-- The block keys are sound exactly when they leave room for the two digits and, with more than
one block, the key has no zero byte. -/
theorem sound_iff (n k r : Nat) (key : Key) (hn : 1 ≤ n) (hmax : n ≤ maxNodes) (hr : 1 ≤ r)
    (hkey : memcachedKeyTest key = true) :
    Sound n k r key ↔ key.length ≤ 248 ∧ (n = 1 ∨ (0 : Byte) ∉ key) := by
  have hmax' : n ≤ 20 := hmax
  constructor
  · intro h
    constructor
    · have htest := h.admitted 0 hn
      simp only [memcachedKeyTest, length_blockKey, Bool.and_eq_true, decide_eq_true_eq] at htest
      omega
    · by_contra hno
      push Not at hno
      have htwo := two_le_groupNumber (r := r) (show 2 ≤ n by omega) hr
      have hmatch := h.repair 0 hn [1] (by
        intro j hj
        rw [List.mem_singleton.mp hj]
        omega)
      have hzero := matchKey_nul hno.2 (m := groupNumber n r 0) (· + groupStart r 0) (by omega)
        (1 + groupStart r 0)
      rw [List.mapM_cons, List.mapM_nil, blockKeys, hzero] at hmatch
      cases hmatch
  · rintro ⟨hlen, hnul⟩
    refine ⟨fun i _ => keyTest_blockKey hlen i, fun i hi => suffixIndex_blockKey key (by omega), ?_, ?_⟩
    · intro order horder
      apply mapM_ok
      intro s hs
      obtain ⟨hsk, hpos⟩ := horder s hs
      rcases hnul with hone | hnul
      · have hle : s ≤ position r s := Nat.le_add_right _ _
        have hs0 : s = 0 := by omega
        by_cases h0 : (0 : Byte) ∈ key
        · rw [blockKeys, matchKey_nul h0 (position r) (by omega), hs0]
        · exact matchKey_get hmax h0 hsk hpos
      · exact matchKey_get hmax hnul hsk hpos
    · intro p hp order horder
      apply mapM_ok
      intro j hj
      rcases hnul with hone | hnul
      · have hlt := (mem_group_iff (n := n) (r := r) (p := p) (j + groupStart r p)).mpr
          ⟨by omega, by have := horder j hj; omega⟩
        by_cases h0 : (0 : Byte) ∈ key
        · have hm := horder j hj
          rw [blockKeys, matchKey_nul h0 _ (by omega)]
          congr 1
          omega
        · exact matchKey_repair hmax h0 (horder j hj)
      · exact matchKey_repair hmax hnul (horder j hj)

theorem sound_sample : Sound 5 3 2 [1] :=
  (sound_iff 5 3 2 [1] (by decide) (by decide) (by decide) (by decide)).mpr (by decide)

/-- A key of one zero byte passes the key test, but every reply is taken for the first block. -/
theorem not_sound_nul : memcachedKeyTest [0] = true ∧ ¬ Sound 5 3 2 [0] := by
  refine ⟨by decide, fun h => ?_⟩
  have hmatch := h.get [1] (by decide)
  exact absurd hmatch (by decide)

end OptLrc.BlockKeys
