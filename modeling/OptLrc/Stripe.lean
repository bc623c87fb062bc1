import OptLrc.Encoder
import Mathlib.Tactic.Ring

namespace OptLrc.Stripe

open OptLrc.Galois OptLrc.Memory OptLrc.Jerasure OptLrc.Encoder

/-- Parameters for which every block has a place in the stripe. -/
structure Valid (n k r : Nat) : Prop where
  k_pos : 1 ≤ k
  r_pos : 1 ≤ r
  fits : k + localGroupNumber n r ≤ n

/-- The number of blocks of local group `i` beside its parity. -/
def groupCount (n r i : Nat) : Nat := min r (n - localGroupNumber n r - i * r)

/-- Block `s` of the sequence that the group loop deals out: the data, then the global parities. -/
def sourceBlock (global : Nat → Nat → Byte) (k blockSize : Nat) (data : Nat → Block) (s : Nat) :
    Block :=
  if s < k then data s else combine blockSize k (global (s - k)) data

def parityBlock (n r blockSize : Nat) (src : Nat → Block) (i : Nat) : Block :=
  combine blockSize (groupCount n r i) (fun _ => 1) (fun ii => src (i * r + ii))

def IsParity (n r p : Nat) : Prop := p % (r + 1) = r ∨ p + 1 = n

instance (n r p : Nat) : Decidable (IsParity n r p) := inferInstanceAs (Decidable (_ ∨ _))

def stripeBlock (n r blockSize : Nat) (src : Nat → Block) (p : Nat) : Block :=
  if IsParity n r p then parityBlock n r blockSize src (p / (r + 1))
  else src (p / (r + 1) * r + p % (r + 1))

section Shape

variable {n k r : Nat}

theorem lt_localGroupNumber_iff (i : Nat) : i < localGroupNumber n r ↔ i * (r + 1) < n := by
  unfold localGroupNumber
  rw [Nat.lt_div_iff_mul_lt (by omega)]
  omega

theorem localGroupNumber_le (n r : Nat) : localGroupNumber n r ≤ n := by
  by_contra h
  have := (lt_localGroupNumber_iff (n := n) (r := r) n).mp (by omega)
  have : n ≤ n * (r + 1) := Nat.le_mul_of_pos_right n (by omega)
  omega

theorem sources_eq (hv : Valid n k r) : n - localGroupNumber n r = k + globalNumber n k r := by
  have := hv.fits
  unfold globalNumber
  omega

theorem blocks_eq (hv : Valid n k r) : n = k + localGroupNumber n r + globalNumber n k r := by
  have := sources_eq hv
  have := hv.fits
  omega

theorem data_lt (hv : Valid n k r) {s : Nat} (hs : s < k) : s < n - localGroupNumber n r := by
  have := hv.fits
  omega

theorem group_div {i ii : Nat} (h : ii ≤ r) : (i * (r + 1) + ii) / (r + 1) = i := by
  rw [Nat.mul_comm, Nat.mul_add_div (by omega), Nat.div_eq_of_lt (by omega), Nat.add_zero]

theorem group_mod {i ii : Nat} (h : ii ≤ r) : (i * (r + 1) + ii) % (r + 1) = ii :=
  Nat.mul_add_mod_of_lt (by omega)

theorem groupCount_le (n r i : Nat) : groupCount n r i ≤ r := min_le_left _ _

/-- A local group starts at a multiple of `r + 1`, has `groupCount` blocks and one parity. -/
theorem group_cases (hr : 1 ≤ r) (i : Nat) (hi : i < localGroupNumber n r) :
    ((i + 1) * (r + 1) ≤ n ∧ r ≤ n - localGroupNumber n r - i * r ∧ groupCount n r i = r) ∨
    (n < (i + 1) * (r + 1) ∧ i + 1 = localGroupNumber n r ∧
      n - localGroupNumber n r - i * r < r ∧ i * (r + 1) + groupCount n r i + 1 = n ∧
      groupCount n r i = n - localGroupNumber n r - i * r) := by
  have hlt := (lt_localGroupNumber_iff i).mp hi
  have hlast := (lt_localGroupNumber_iff (n := n) (r := r) (localGroupNumber n r - 1)).mp (by omega)
  have hL := (lt_localGroupNumber_iff (n := n) (r := r) (localGroupNumber n r)).not.mp (lt_irrefl _)
  have hle := localGroupNumber_le n r
  unfold groupCount
  generalize hLd : localGroupNumber n r = L at *
  obtain ⟨M, rfl⟩ : ∃ M, L = M + 1 := ⟨L - 1, by omega⟩
  simp only [Nat.add_sub_cancel] at hlast
  have e1 : M * (r + 1) = M * r + M := by ring
  have e2 : i * (r + 1) = i * r + i := by ring
  have e3 : (i + 1) * (r + 1) = i * r + i + r + 1 := by ring
  have e4 : (M + 1) * (r + 1) = M * r + M + r + 1 := by ring
  rw [e1] at hlast
  rw [e2] at hlt
  rw [e4] at hL
  rw [e2, e3]
  by_cases h : i < M
  · left
    have : (i + 1) * r ≤ M * r := Nat.mul_le_mul_right r (by omega)
    have : (i + 1) * r = i * r + r := by ring
    omega
  · have : i = M := by omega
    subst this
    omega

theorem exists_position (hr : 1 ≤ r) (p : Nat) (hp : p < n) :
    ∃ i < localGroupNumber n r, ∃ ii ≤ groupCount n r i, p = i * (r + 1) + ii := by
  have hpe : p = p / (r + 1) * (r + 1) + p % (r + 1) := (Nat.div_add_mod' p (r + 1)).symm
  have hm := Nat.mod_lt p (show 0 < r + 1 by omega)
  have hi : p / (r + 1) < localGroupNumber n r := (lt_localGroupNumber_iff _).mpr (by omega)
  refine ⟨p / (r + 1), hi, p % (r + 1), ?_, hpe⟩
  rcases group_cases hr _ hi with h | h <;> omega

/-- Where the stripe holds source `s`. -/
def position (r s : Nat) : Nat := s + s / r

/-- Where the stripe holds the parity of local group `i`. -/
def parityPosition (n r i : Nat) : Nat := i * (r + 1) + groupCount n r i

theorem isParity_parityPosition (hr : 1 ≤ r) (i : Nat) (hi : i < localGroupNumber n r) :
    IsParity n r (parityPosition n r i) := by
  unfold parityPosition
  rcases group_cases hr i hi with h | h
  · left
    rw [h.2.2, group_mod le_rfl]
  · right
    omega

theorem not_isParity (hr : 1 ≤ r) (i ii : Nat) (hi : i < localGroupNumber n r)
    (hii : ii < groupCount n r i) : ¬ IsParity n r (i * (r + 1) + ii) := by
  have hle := groupCount_le n r i
  have e : (i + 1) * (r + 1) = i * (r + 1) + r + 1 := by ring
  have hmod : (i * (r + 1) + ii) % (r + 1) = ii := group_mod (by omega)
  unfold IsParity
  rcases group_cases hr i hi with h | h <;> omega

theorem lt_groupCount (hr : 1 ≤ r) (s : Nat) (hs : s < n - localGroupNumber n r) :
    s / r < localGroupNumber n r ∧ s % r < groupCount n r (s / r) := by
  have hd := Nat.div_add_mod' s r
  have hm := Nat.mod_lt s (show 0 < r by omega)
  have hle := localGroupNumber_le n r
  have hL := (lt_localGroupNumber_iff (n := n) (r := r) (localGroupNumber n r)).not.mp (lt_irrefl _)
  have e : localGroupNumber n r * (r + 1) = localGroupNumber n r * r + localGroupNumber n r := by ring
  refine ⟨?_, by unfold groupCount; omega⟩
  by_contra h
  have := Nat.mul_le_mul_right r (Nat.le_of_not_lt h)
  omega

theorem position_eq (r s : Nat) : position r s = s / r * (r + 1) + s % r := by
  have hd := Nat.div_add_mod' s r
  have e : s / r * (r + 1) = s / r * r + s / r := by ring
  unfold position
  omega

theorem position_spec (hr : 1 ≤ r) (s : Nat) (hs : s < n - localGroupNumber n r) :
    ¬ IsParity n r (position r s) ∧ position r s / (r + 1) = s / r ∧
      position r s % (r + 1) = s % r := by
  have hm := Nat.mod_lt s (show 0 < r by omega)
  obtain ⟨hi, hii⟩ := lt_groupCount hr s hs
  rw [position_eq r s]
  exact ⟨not_isParity hr _ _ hi hii, group_div (by omega), group_mod (by omega)⟩

theorem group_lt (hr : 1 ≤ r) {i j : Nat} (hi : i < localGroupNumber n r) (hj : j ≤ groupCount n r i) :
    i * (r + 1) + j < n := by
  have hle := groupCount_le n r i
  have e : (i + 1) * (r + 1) = i * (r + 1) + r + 1 := by ring
  rcases group_cases hr i hi with h | h <;> omega

theorem source_lt (hr : 1 ≤ r) (s : Nat) (hs : s < n - localGroupNumber n r) : position r s < n := by
  obtain ⟨hi, hii⟩ := lt_groupCount hr s hs
  rw [position_eq]
  exact group_lt hr hi (Nat.le_of_lt hii)

theorem position_strictMono (r : Nat) : StrictMono (position r) := by
  intro s t h
  have := Nat.div_le_div_right (c := r) (Nat.le_of_lt h)
  unfold position
  omega

/-- Each position holds one source or one parity. -/
theorem position_cases (hr : 1 ≤ r) (p : Nat) (hp : p < n) :
    (∃ s < n - localGroupNumber n r, p = position r s) ∨
      ∃ i < localGroupNumber n r, p = parityPosition n r i := by
  obtain ⟨i, hi, ii, hii, rfl⟩ := exists_position hr p hp
  rcases Nat.lt_or_ge ii (groupCount n r i) with h | h
  · left
    have hle := groupCount_le n r i
    have hlt : i * r + ii < n - localGroupNumber n r := by
      unfold groupCount at h
      omega
    refine ⟨i * r + ii, hlt, ?_⟩
    have hdiv : (i * r + ii) / r = i := by
      rw [Nat.mul_comm, Nat.mul_add_div (by omega), Nat.div_eq_of_lt (by omega), Nat.add_zero]
    rw [position_eq, hdiv, Nat.mul_add_mod_of_lt (by omega)]
  · right
    exact ⟨i, hi, by rw [parityPosition, Nat.le_antisymm hii h]⟩

end Shape

section Loop

variable {V : CodingMatrix} {n k r blockSize : Nat} {dataPtrs globalPtrs : Cells Block}
  {src : Nat → Block}

/-- The pointers the group loop deals out. -/
structure Sources (k g : Nat) (dataPtrs globalPtrs : Cells Block) (src : Nat → Block) : Prop where
  data : ∀ s < k, dataPtrs[s]? = some (some (src s))
  global : ∀ j < g, globalPtrs[j]? = some (some (src (k + j)))

theorem placeSource_eq {g : Nat} (hs : Sources k g dataPtrs globalPtrs src) (i : Nat)
    (st : Cells Block × Cells Block) (ii : Nat) (hi : i * r + ii < k + g) (hl : ii < st.1.length)
    (ha : i * (r + 1) + ii < st.2.length) :
    placeSource k r i dataPtrs globalPtrs st ii =
      .ok (st.1.set ii (some (src (i * r + ii))),
        st.2.set (i * (r + 1) + ii) (some (src (i * r + ii)))) := by
  by_cases h : i * r + ii < k
  · simp only [placeSource, h, if_true, Cells.read_eq (hs.data _ h), ok_bind, Cells.write_eq _ hl,
      Cells.write_eq _ ha, pure_eq_ok]
  · have hg := hs.global (i * r + ii - k) (by omega)
    rw [Nat.add_sub_cancel' (by omega)] at hg
    simp only [placeSource, h, if_false, Cells.read_eq hg, ok_bind, Cells.write_eq _ hl,
      Cells.write_eq _ ha, pure_eq_ok]

theorem foldlM_placeSource {g : Nat} (hs : Sources k g dataPtrs globalPtrs src) (i count m : Nat)
    (hm : m ≤ count) (all : Cells Block) (hc : i * r + count ≤ k + g)
    (ha : i * (r + 1) + count ≤ all.length) :
    ∃ group all', (List.range m).foldlM (placeSource k r i dataPtrs globalPtrs)
        (Cells.new count, all) = .ok (group, all') ∧
      group.length = count ∧ (∀ ii < m, group[ii]? = some (some (src (i * r + ii)))) ∧
      all'.length = all.length ∧
      (∀ ii < m, all'[i * (r + 1) + ii]? = some (some (src (i * r + ii)))) ∧
      ∀ p, p < i * (r + 1) → all'[p]? = all[p]? := by
  induction m with
  | zero => exact ⟨_, all, rfl, by simp, by simp, rfl, by simp, fun _ _ => rfl⟩
  | succ m ih =>
    obtain ⟨group, all', he, hgl, hg, hal, hp, hframe⟩ := ih (by omega)
    refine ⟨group.set m (some (src (i * r + m))),
      all'.set (i * (r + 1) + m) (some (src (i * r + m))), ?_, ?_, ?_, ?_, ?_, ?_⟩
    · rw [List.range_succ, List.foldlM_append, he]
      exact (bind_pure _).trans
        (placeSource_eq hs i (group, all') m (by omega) (by simp; omega) (by simp; omega))
    · simpa using hgl
    · intro ii hii
      rcases Nat.lt_succ_iff_lt_or_eq.mp hii with h | rfl
      · rw [List.getElem?_set_ne (by omega)]
        exact hg ii h
      · exact List.getElem?_set_self (by omega)
    · simpa using hal
    · intro ii hii
      rcases Nat.lt_succ_iff_lt_or_eq.mp hii with h | rfl
      · rw [List.getElem?_set_ne (by omega)]
        exact hp ii h
      · exact List.getElem?_set_self (by omega)
    · intro p hlt
      rw [List.getElem?_set_ne (by omega)]
      exact hframe p hlt

theorem combine_congr {size m : Nat} {row row' : Nat → Byte} {f f' : Nat → Block}
    (hr : ∀ i < m, row i = row' i) (hf : ∀ i < m, f i = f' i) :
    combine size m row f = combine size m row' f' := by
  unfold combine
  refine List.foldl_ext _ _ _ (fun acc i hi => ?_)
  have := List.mem_range.mp hi
  rw [hr i this, hf i this]

/-- A single parity row of ones stores the sum of the blocks. -/
theorem calculateParityPtrsRs_one {count : Nat} {group : Cells Block} {f : Nat → Block}
    (h8 : 8 ∣ blockSize) (hone : ∀ j < count, V count 1 0 j = 1)
    (hg : ∀ i < count, group[i]? = some (some (f i))) (hl : ∀ i < count, (f i).length = blockSize) :
    calculateParityPtrsRs V group count (Cells.filled 1 (zeroBlock blockSize)) 1 blockSize =
      .ok [some (combine blockSize count (fun _ => 1) f)] := by
  have hd : jerasureMatrixDotprod count (V count 1 0) group.read (zeroBlock blockSize) blockSize =
      .ok (combine blockSize count (fun _ => 1) f) := by
    rw [jerasureMatrixDotprod_eq h8 (fun i hi => Cells.read_eq (hg i hi)) hl]
    exact congrArg Except.ok (combine_congr hone (fun _ _ => rfl))
  have hz : Cells.read (Cells.filled 1 (zeroBlock blockSize)) 0 = .ok (zeroBlock blockSize) := rfl
  simp only [calculateParityPtrsRs, jerasureMatrixEncode, List.range_one, List.foldlM_cons,
    List.foldlM_nil, hz, ok_bind, hd]
  rfl

/-- One coding device for `count` blocks stores their sum. -/
def SumsBlocks (V : CodingMatrix) (count blockSize : Nat) : Prop :=
  ∀ (group : Cells Block) (f : Nat → Block), (∀ i < count, group[i]? = some (some (f i))) →
    (∀ i < count, (f i).length = blockSize) →
    calculateParityPtrsRs V group count (Cells.filled 1 (zeroBlock blockSize)) 1 blockSize =
      .ok [some (combine blockSize count (fun _ => 1) f)]

theorem sumsBlocks_of_ones {count : Nat} (h8 : 8 ∣ blockSize) (hone : ∀ j < count, V count 1 0 j = 1) :
    SumsBlocks V count blockSize :=
  fun _ _ hg hl => calculateParityPtrsRs_one h8 hone hg hl

theorem length_parityBlock (hl : ∀ s < n - localGroupNumber n r, (src s).length = blockSize)
    (i : Nat) : (parityBlock n r blockSize src i).length = blockSize := by
  refine length_combine _ _ _ _ (fun ii hii => hl _ ?_)
  have := min_le_right r (n - localGroupNumber n r - i * r)
  unfold groupCount at hii
  omega

/-- One turn of the group loop fills the positions from `i * (r + 1)` on. -/
theorem placeGroup_eq {g : Nat} (hs : Sources k g dataPtrs globalPtrs src)
    (r i count pos : Nat) (hsum : SumsBlocks V count blockSize)
    (hl : ∀ ii < count, (src (i * r + ii)).length = blockSize) (all : Cells Block)
    (hc : i * r + count ≤ k + g) (hpos : pos = i * (r + 1) + count) (ha : pos < all.length) :
    ∃ all', placeGroup V k r i blockSize dataPtrs globalPtrs all count pos = .ok all' ∧
      all'.length = all.length ∧
      (∀ ii < count, all'[i * (r + 1) + ii]? = some (some (src (i * r + ii)))) ∧
      all'[pos]? = some (some (combine blockSize count (fun _ => 1) (fun ii => src (i * r + ii)))) ∧
      ∀ p, p < i * (r + 1) → all'[p]? = all[p]? := by
  obtain ⟨group, all', he, -, hg, hal, hp, hframe⟩ :=
    foldlM_placeSource hs i count count le_rfl all hc (by omega)
  have hcoding := hsum group _ hg hl
  generalize combine blockSize count (fun _ => 1) (fun ii => src (i * r + ii)) = parity at hcoding ⊢
  have hread : Cells.read [some parity] 0 = .ok parity := rfl
  refine ⟨all'.set pos (some parity), ?_, ?_, ?_, ?_, ?_⟩
  · simp only [placeGroup, he, ok_bind, hcoding, hread]
    exact Cells.write_eq _ (by omega)
  · simpa using hal
  · intro ii hii
    rw [List.getElem?_set_ne (by omega)]
    exact hp ii hii
  · exact List.getElem?_set_self (by omega)
  · intro p hlt
    rw [List.getElem?_set_ne (by omega)]
    exact hframe p hlt

theorem stripeBlock_source (hr : 1 ≤ r) (i ii : Nat) (hi : i < localGroupNumber n r)
    (hii : ii < groupCount n r i) :
    stripeBlock n r blockSize src (i * (r + 1) + ii) = src (i * r + ii) := by
  have hle := groupCount_le n r i
  rw [stripeBlock, if_neg (not_isParity hr i ii hi hii), group_div (by omega), group_mod (by omega)]

theorem stripeBlock_parity (hr : 1 ≤ r) (i : Nat) (hi : i < localGroupNumber n r) :
    stripeBlock n r blockSize src (parityPosition n r i) = parityBlock n r blockSize src i := by
  rw [stripeBlock, if_pos (isParity_parityPosition hr i hi), parityPosition,
    group_div (groupCount_le n r i)]

theorem stripeBlock_position (hr : 1 ≤ r) (s : Nat) (hs : s < n - localGroupNumber n r) :
    stripeBlock n r blockSize src (position r s) = src s := by
  obtain ⟨hnp, hdiv, hmod⟩ := position_spec hr s hs
  rw [stripeBlock, if_neg hnp, hdiv, hmod, Nat.div_add_mod']

/-- What the group loop has done after `m` turns. -/
structure LoopState (n r blockSize : Nat) (src : Nat → Block) (m : Nat) (st : Nat × Cells Block) :
    Prop where
  remain : m < localGroupNumber n r → st.1 = n - localGroupNumber n r - m * r
  length : st.2.length = n
  done : ∀ p < n, p < m * (r + 1) → st.2[p]? = some (some (stripeBlock n r blockSize src p))

theorem groupStep_eq (hv : Valid n k r) (hs : Sources k (globalNumber n k r) dataPtrs globalPtrs src)
    (hsum : ∀ i < localGroupNumber n r, SumsBlocks V (groupCount n r i) blockSize)
    (hl : ∀ s < n - localGroupNumber n r, (src s).length = blockSize) (i : Nat)
    (hi : i < localGroupNumber n r) (st : Nat × Cells Block)
    (hst : LoopState n r blockSize src i st) :
    ∃ st', groupStep V n k r blockSize dataPtrs globalPtrs st i = .ok st' ∧
      LoopState n r blockSize src (i + 1) st' := by
  obtain ⟨remain, all⟩ := st
  obtain ⟨hrem, hlen, hdone⟩ := hst
  simp only at hrem hlen hdone
  have hk := hv.fits
  have hg : globalNumber n k r = n - localGroupNumber n r - k := rfl
  have e : (i + 1) * (r + 1) = i * (r + 1) + r + 1 := by ring
  have e' : (i + 1) * r = i * r + r := by ring
  have hpos : i * (r + 1) + groupCount n r i < n := by
    rcases group_cases hv.r_pos i hi with h | h <;> omega
  have hcount : i * r + groupCount n r i ≤ n - localGroupNumber n r := by
    have e'' : i * (r + 1) = i * r + i := by ring
    have := hv.r_pos
    rcases group_cases hv.r_pos i hi with h | h <;> omega
  obtain ⟨all', he, hal, hsrc, hpar, hframe⟩ :=
    placeGroup_eq hs r i (groupCount n r i) _ (hsum i hi)
      (fun ii hii => hl _ (by omega)) all (by omega) rfl (by omega)
  have hcover : ∀ p < n, p < (i + 1) * (r + 1) →
      all'[p]? = some (some (stripeBlock n r blockSize src p)) := by
    intro p hp hlt
    rcases Nat.lt_or_ge p (i * (r + 1)) with h | h
    · rw [hframe p h]
      exact hdone p hp h
    · obtain ⟨ii, rfl⟩ := Nat.exists_eq_add_of_le h
      rcases Nat.lt_trichotomy ii (groupCount n r i) with h' | rfl | h'
      · rw [hsrc ii h', stripeBlock_source hv.r_pos i ii hi h']
      · rw [hpar, ← parityPosition, stripeBlock_parity hv.r_pos i hi]
        rfl
      · rcases group_cases hv.r_pos i hi with h'' | h'' <;> omega
  rcases group_cases hv.r_pos i hi with h | h
  · refine ⟨(remain - r, all'), ?_, fun _ => ?_, by simpa [hlen] using hal, hcover⟩
    · rw [h.2.2] at he
      simp only [groupStep, hrem hi, h.2.1, if_true, he, ok_bind, pure_eq_ok]
    · simp only [hrem hi]
      omega
  · refine ⟨(remain, all'), ?_, fun hlt => by omega, by simpa [hlen] using hal, hcover⟩
    have hn : i * (r + 1) + groupCount n r i = n - 1 := by omega
    rw [hn, h.2.2.2.2, ← hrem hi] at he
    simp only [groupStep, Nat.not_le.mpr (hrem hi ▸ h.2.2.1), if_false, he, ok_bind, pure_eq_ok]

theorem groupLoop_eq (hv : Valid n k r)
    (hs : Sources k (globalNumber n k r) dataPtrs globalPtrs src)
    (hsum : ∀ i < localGroupNumber n r, SumsBlocks V (groupCount n r i) blockSize)
    (hl : ∀ s < n - localGroupNumber n r, (src s).length = blockSize) :
    groupLoop V n k r blockSize dataPtrs globalPtrs =
      .ok ((List.range n).map (fun p => some (stripeBlock n r blockSize src p))) := by
  have hg := (sources_eq hv).symm
  have hrun : ∀ m ≤ localGroupNumber n r, ∃ st, (List.range m).foldlM
      (groupStep V n k r blockSize dataPtrs globalPtrs)
      (k + globalNumber n k r, Cells.filled n (zeroBlock blockSize)) = .ok st ∧
      LoopState n r blockSize src m st := by
    intro m hm
    induction m with
    | zero => exact ⟨_, rfl, fun _ => by simpa using hg, by simp, by simp⟩
    | succ m ih =>
      obtain ⟨st, he, hst⟩ := ih (by omega)
      obtain ⟨st', he', hst'⟩ := groupStep_eq hv hs hsum hl m hm st hst
      exact ⟨st', by rw [List.range_succ, List.foldlM_append, he]; exact (bind_pure _).trans he', hst'⟩
  obtain ⟨st, he, hst⟩ := hrun _ le_rfl
  have hall : st.2 = (List.range n).map (fun p => some (stripeBlock n r blockSize src p)) := by
    have hL := (lt_localGroupNumber_iff (n := n) (r := r) _).not.mp (lt_irrefl _)
    refine List.ext_getElem? (fun p => ?_)
    rcases Nat.lt_or_ge p n with h | h
    · rw [hst.done p h (by omega)]
      simp [h]
    · rw [List.getElem?_eq_none (by rw [hst.length]; exact h), List.getElem?_eq_none (by simpa using h)]
  simp only [groupLoop, he, ok_bind, pure_eq_ok, hall]

end Loop

section Encode

variable {V : CodingMatrix} {n k r blockSize : Nat} {dataPtrs : Cells Block} {data : Nat → Block}

theorem jerasureMatrixEncode_eq (matrix : Nat → Nat → Byte) (m : Nat) (h8 : 8 ∣ blockSize)
    (hd : ∀ s < k, dataPtrs[s]? = some (some (data s)))
    (hl : ∀ s < k, (data s).length = blockSize) :
    jerasureMatrixEncode k m matrix dataPtrs (Cells.filled m (zeroBlock blockSize)) blockSize =
      .ok ((List.range m).map (fun j => some (combine blockSize k (matrix j) data))) := by
  have hrun : ∀ j ≤ m, (List.range j).foldlM (fun coding i => do
      coding.write i (← jerasureMatrixDotprod k (matrix i) dataPtrs.read (← coding.read i) blockSize))
      (Cells.filled m (zeroBlock blockSize)) =
      .ok ((List.range j).map (fun j => some (combine blockSize k (matrix j) data)) ++
        Cells.filled (m - j) (zeroBlock blockSize)) := by
    intro j hj
    induction j with
    | zero => rfl
    | succ j ih =>
      rw [List.range_succ, List.foldlM_append, ih (by omega), ok_bind]
      obtain ⟨d, hd'⟩ : ∃ d, m - j = d + 1 := ⟨m - j - 1, by omega⟩
      have hread : Cells.read ((List.range j).map (fun j => some (combine blockSize k (matrix j) data)) ++
          Cells.filled (m - j) (zeroBlock blockSize)) j = .ok (zeroBlock blockSize) := by
        refine Cells.read_eq ?_
        rw [List.getElem?_append_right (by simp)]
        simp [Cells.filled, hd']
      simp only [List.foldlM_cons, List.foldlM_nil, hread, ok_bind,
        jerasureMatrixDotprod_eq h8 (fun i hi => Cells.read_eq (hd i hi)) hl]
      rw [Cells.write_eq _ (by simp; omega), ok_bind, pure_eq_ok, List.set_append_right _ _ (by simp)]
      have : m - (j + 1) = d := by omega
      simp [Cells.filled, hd', this, List.replicate_succ]
  have := hrun m le_rfl
  simpa [jerasureMatrixEncode, Cells.filled] using this

theorem length_sourceBlock (global : Nat → Nat → Byte) (hl : ∀ s < k, (data s).length = blockSize)
    (s : Nat) : (sourceBlock global k blockSize data s).length = blockSize := by
  unfold sourceBlock
  split
  · next h => exact hl s h
  · exact length_combine _ _ _ _ hl

/-- The stripe that the encoder stores, as one block for each position. -/
theorem allBlocksWith_eq (global : Nat → Nat → Byte) (hv : Valid n k r) (h8 : 8 ∣ blockSize)
    (hone : ∀ count < n, ∀ j < count, V count 1 0 j = 1)
    (hd : ∀ s < k, dataPtrs[s]? = some (some (data s)))
    (hl : ∀ s < k, (data s).length = blockSize) :
    allBlocksWith V global n k r blockSize dataPtrs =
      .ok ((List.range n).map (fun p => some (stripeBlock n r blockSize
        (sourceBlock global k blockSize data) p))) := by
  simp only [allBlocksWith, jerasureMatrixEncode_eq _ _ h8 hd hl, ok_bind]
  refine groupLoop_eq hv ⟨fun s hs => ?_, fun j hj => ?_⟩ (fun i hi => ?_)
    (fun s _ => length_sourceBlock global hl s)
  · rw [hd s hs, sourceBlock, if_pos hs]
  · rw [sourceBlock, if_neg (by omega)]
    simp [hj]
  · have hlt : groupCount n r i < n := by
      have := min_le_right r (n - localGroupNumber n r - i * r)
      have := hv.k_pos
      have := hv.fits
      unfold groupCount
      omega
    exact sumsBlocks_of_ones h8 (hone _ hlt)

end Encode

end OptLrc.Stripe
