import OptLrc.Retrieval
import Mathlib.Data.List.TakeWhile

namespace OptLrc.Keys

open OptLrc.Galois OptLrc.Memory OptLrc.Jerasure OptLrc.Encoder OptLrc.Memcached OptLrc.Exchange
open OptLrc.Retrieval

def digitByte (d : Nat) : Byte := Byte.ofNat (48 + d)

theorem toNat_digitByte {d : Nat} (hd : d < 10) : (digitByte d).toNat = 48 + d := by
  change (48 + d) % 256 = 48 + d
  omega

theorem digitByte_inj {d e : Nat} (hd : d < 10) (he : e < 10) (h : digitByte d = digitByte e) :
    d = e := by
  have := congrArg Byte.toNat h
  rw [toNat_digitByte hd, toNat_digitByte he] at this
  omega

theorem charDigit_digitByte {d : Nat} (hd : d < 10) : charDigit (digitByte d) = d := by
  have hn : BitVec.toNat (digitByte d : BitVec 8) = 48 + d := toNat_digitByte hd
  have hi := BitVec.toInt_eq_toNat_cond (digitByte d : BitVec 8)
  rw [hn, if_pos (by omega)] at hi
  change BitVec.toInt (digitByte d : BitVec 8) - 48 = d
  omega

theorem blockKey_eq (key : Key) (i : Nat) :
    blockKey key i = key ++ [digitByte (i / 10), digitByte (i - i / 10 * 10)] := rfl

@[simp] theorem length_blockKey (key : Key) (i : Nat) : (blockKey key i).length = key.length + 2 := by
  simp [blockKey]

/-- The block keys of different objects, and of different blocks, differ. -/
theorem blockKey_inj {key key' : Key} {i j : Nat} (hi : i < 100) (hj : j < 100)
    (h : blockKey key i = blockKey key' j) : key = key' ∧ i = j := by
  rw [blockKey_eq, blockKey_eq] at h
  obtain ⟨hk, hd⟩ := List.append_inj' h rfl
  simp only [List.cons.injEq, and_true] at hd
  have h1 := digitByte_inj (by omega) (by omega) hd.1
  have h2 := digitByte_inj (by omega) (by omega) hd.2
  exact ⟨hk, by omega⟩

theorem suffixIndex_blockKey (key : Key) {i : Nat} (hi : i < 100) :
    suffixIndex (blockKey key i) = .ok i := by
  rw [suffixIndex, blockKey_eq, List.reverse_append]
  simp only [List.reverse_cons, List.reverse_nil, List.nil_append, List.cons_append,
    charDigit_digitByte (show i / 10 < 10 by omega),
    charDigit_digitByte (show i - i / 10 * 10 < 10 by omega)]
  rw [if_neg (by omega)]
  congr 1
  omega

/-- The two characters name an index modulo 2560. -/
theorem blockKey_mod (key : Key) (p : Nat) : blockKey key (p % 2560) = blockKey key p := by
  have hbyte : ∀ a b : Nat, a % 256 = b % 256 → Byte.ofNat a = Byte.ofNat b := by
    intro a b h
    exact BitVec.eq_of_toNat_eq h
  unfold blockKey
  rw [hbyte (48 + p % 2560 / 10) (48 + p / 10) (by omega),
    hbyte (48 + (p % 2560 - p % 2560 / 10 * 10)) (48 + (p - p / 10 * 10)) (by omega)]

theorem charDigit_ofNat {d : Nat} (hd : d < 256) :
    charDigit (Byte.ofNat (48 + d)) = d ∨ charDigit (Byte.ofNat (48 + d)) = d - 256 := by
  have hn : BitVec.toNat (Byte.ofNat (48 + d) : BitVec 8) = (48 + d) % 256 := rfl
  have hi := BitVec.toInt_eq_toNat_cond (Byte.ofNat (48 + d) : BitVec 8)
  rw [hn] at hi
  change BitVec.toInt (Byte.ofNat (48 + d) : BitVec 8) - 48 = d ∨
    BitVec.toInt (Byte.ofNat (48 + d) : BitVec 8) - 48 = d - 256
  split at hi <;> omega

/-- An index is read back as it is, or not at all. -/
theorem suffixIndex_blockKey_cases (key : Key) {p : Nat} (hp : p < 2560) :
    suffixIndex (blockKey key p) = .ok p ∨ ∃ e, suffixIndex (blockKey key p) = .error e := by
  have hone : charDigit (Byte.ofNat (48 + (p - p / 10 * 10))) = (p - p / 10 * 10 : Nat) :=
    charDigit_digitByte (by omega)
  have hten := charDigit_ofNat (d := p / 10) (by omega)
  rw [suffixIndex, blockKey, List.reverse_append]
  simp only [List.reverse_cons, List.reverse_nil, List.nil_append, List.cons_append, hone]
  rcases hten with h | h
  · left
    rw [h, if_neg (by omega)]
    congr 1
    omega
  · right
    rw [h, if_pos (by omega)]
    exact ⟨_, rfl⟩

section NulFree

variable {key : Key} (hnul : (0 : Byte) ∉ key)
include hnul

theorem cString_blockKey {i : Nat} (hi : i < 100) : cString (blockKey key i) = blockKey key i := by
  have hd : ∀ d < 10, digitByte d ≠ 0 := by
    intro d hd h
    have := congrArg Byte.toNat h
    rw [toNat_digitByte hd] at this
    change 48 + d = 0 at this
    omega
  rw [cString, List.takeWhile_eq_self_iff]
  intro b hb
  rw [blockKey_eq, List.mem_append] at hb
  simp only [decide_eq_true_eq]
  rcases hb with hb | hb
  · rintro rfl
    exact hnul hb
  · simp only [List.mem_cons, List.not_mem_nil, or_false] at hb
    rcases hb with rfl | rfl
    · exact hd _ (by omega)
    · exact hd _ (by omega)

/-- A reply is matched to the first of the keys that it equals. -/
theorem matchKey_first {m : Nat} (pos : Nat → Nat) {i : Nat} (hi : i < m) (hpos : ∀ j ≤ i, pos j < 100)
    (hne : ∀ j < i, pos j ≠ pos i) :
    matchKey key.length ((List.range m).map (fun i => blockKey key (pos i))) (blockKey key (pos i)) =
      .ok i := by
  rw [matchKey, if_pos (length_blockKey _ _)]
  congr 1
  rw [List.findIdx_eq (by simpa using hi)]
  simp only [List.getElem_map, List.getElem_range, decide_eq_true_eq, decide_eq_false_iff_not,
    true_and]
  intro j hj he
  rw [cString_blockKey hnul (hpos i le_rfl), cString_blockKey hnul (hpos j (Nat.le_of_lt hj))] at he
  exact hne j hj (blockKey_inj (hpos i le_rfl) (hpos j (Nat.le_of_lt hj)) he).2.symm

theorem matchKey_blockKey {m : Nat} (pos : Nat → Nat) (hpos : ∀ i < m, pos i < 100)
    (hinj : ∀ i < m, ∀ j < m, pos i = pos j → i = j) {i : Nat} (hi : i < m) :
    matchKey key.length ((List.range m).map (fun i => blockKey key (pos i))) (blockKey key (pos i)) =
      .ok i := by
  refine matchKey_first hnul pos hi (fun j hj => hpos j (by omega)) (fun j hj he => ?_)
  have := hinj j (by omega) i hi he
  omega

end NulFree

section Nul

variable {key : Key} (hnul : (0 : Byte) ∈ key)
include hnul

/-- A zero byte hides the digits from `strcmp`. -/
theorem cString_blockKey_nul (i : Nat) : cString (blockKey key i) = cString key := by
  rw [cString, blockKey_eq, List.takeWhile_append, if_neg]
  · rfl
  · intro hlen
    have hself := List.takeWhile_eq_self_iff.mp
      ((List.takeWhile_prefix (p := (· ≠ (0 : Byte))) (l := key)).eq_of_length hlen)
    exact absurd (hself 0 hnul) (by simp)

theorem matchKey_nul {m : Nat} (pos : Nat → Nat) (hm : 0 < m) (i : Nat) :
    matchKey key.length ((List.range m).map (fun i => blockKey key (pos i))) (blockKey key i) = .ok 0 := by
  rw [matchKey, if_pos (length_blockKey _ _)]
  congr 1
  rw [List.findIdx_eq (by simpa using hm)]
  simp [cString_blockKey_nul hnul]

end Nul

end OptLrc.Keys
