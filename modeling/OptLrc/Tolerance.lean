import OptLrc.Codes

namespace OptLrc.Tolerance

open OptLrc.Galois OptLrc.Memory OptLrc.Jerasure OptLrc.Encoder OptLrc.Stripe OptLrc.Distance
  OptLrc.Codes

/-- What the encoder relies on of `reed_sol_vandermonde_coding_matrix(k, m, 8)`. -/
structure Systematic (V : CodingMatrix) : Prop where
  ones : FirstRowOnes V
  mds : ∀ k m, k + m ≤ 256 → Mds (V k m) k m

/-- Any `d - 1` positions of `all_blocks` can be lost, for the `d` of `cal`: the blocks at
the others determine the data blocks. -/
def FaultTolerant (V : CodingMatrix) (n k r : Nat) : Prop :=
  ∀ size, 8 ∣ size → ∃ stripe : Tuple k size → Cells Block,
    (∀ x, allBlocks V n k r size x.ptrs = .ok (stripe x)) ∧
    ∀ lost : Finset Nat, (lost.card : Int) ≤ cal n k r - 1 → ∀ x y,
      (∀ p < n, p ∉ lost → (stripe x)[p]? = (stripe y)[p]?) → x = y

/-- The parameters for which no dependency between the parities shortens the code. -/
def Spared (n k r : Nat) : Prop :=
  globalNumber n k r = 0 ∨ r = 1 ∨ (k = 1 ∧ globalNumber n k r = 2 ∧ 3 ≤ r) ∨
    (k = 1 ∧ globalNumber n k r = 3 ∧ r = 3) ∨ (k = 2 ∧ globalNumber n k r = 3 ∧ r = 4)

instance (n k r : Nat) : Decidable (Spared n k r) := inferInstanceAs (Decidable (_ ∨ _))

section Symbols

variable {F : Type} [Field F] {n k r : Nat}

/-- The sum of the sources of group `p`. -/
def groupSum (m r : Nat) (source : Nat → F) (p : Nat) : F :=
  ∑ s ∈ Finset.range m with s / r = p, source s

theorem stripeSymbol_group (hr : 1 ≤ r) (source : Nat → F) {p : Nat}
    (hp : p < localGroupNumber n r) : stripeSymbol n r source (parityPosition n r p) =
      groupSum (n - localGroupNumber n r) r source p := by
  rw [stripeSymbol_parity hr source p hp, groupSum]
  apply Finset.sum_nbij (fun ii => p * r + ii)
  · intro ii hii
    have hlt := Finset.mem_range.mp hii
    unfold groupCount at hlt
    simp only [Finset.mem_filter, Finset.mem_range]
    refine ⟨by omega, ?_⟩
    rw [Nat.mul_comm, Nat.mul_add_div (by omega), Nat.div_eq_of_lt (by omega), Nat.add_zero]
  · intro i _ j _ h
    simpa using h
  · intro s hs
    obtain ⟨hlt, rfl⟩ := Finset.mem_filter.mp (Finset.mem_coe.mp hs)
    have hlt := (lt_groupCount hr s (Finset.mem_range.mp hlt)).2
    exact ⟨s % r, Finset.mem_coe.mpr (Finset.mem_range.mpr hlt), Nat.div_add_mod' s r⟩
  · intro ii _
    rfl

theorem parityPosition_injective (n r : Nat) : Function.Injective (parityPosition n r) := by
  intro p q h
  have hdiv : ∀ i, parityPosition n r i / (r + 1) = i := fun i => group_div (groupCount_le n r i)
  rw [← hdiv p, h, hdiv]

/-- A word is lost with all its symbols, so it has to have more of them than are lost. -/
theorem symbolTolerates_of_weight (hr : 1 ≤ r) (A : Nat → Nat → F) (e : Nat)
    (h : ∀ (c : Nat → F) (s : Nat), s < k → c s ≠ 0 → ∀ N M : Finset Nat,
      (∀ s < n - localGroupNumber n r, symbol A k c s ≠ 0 → s ∈ N) →
      (∀ p < localGroupNumber n r,
        groupSum (n - localGroupNumber n r) r (symbol A k c) p ≠ 0 → p ∈ M) →
      e < N.card + M.card) : SymbolTolerates A n k r e := by
  intro lost hcard c hc s hs
  by_contra hne
  let N := {s ∈ Finset.range (n - localGroupNumber n r) | position r s ∈ lost}
  let M := {p ∈ Finset.range (localGroupNumber n r) | parityPosition n r p ∈ lost}
  have hlt := h c s hs hne N M
    (fun s hs hs0 => by
      refine Finset.mem_filter.mpr ⟨Finset.mem_range.mpr hs, ?_⟩
      by_contra hnot
      apply hs0
      rw [← stripeSymbol_position hr (symbol A k c) s hs]
      exact hc _ (source_lt hr s hs) hnot)
    (fun p hp hp0 => by
      refine Finset.mem_filter.mpr ⟨Finset.mem_range.mpr hp, ?_⟩
      by_contra hnot
      apply hp0
      rw [← stripeSymbol_group hr (symbol A k c) hp]
      exact hc _ (group_lt hr hp le_rfl) hnot)
  have hdisj : Disjoint (N.image (position r)) (M.image (parityPosition n r)) := by
    rw [Finset.disjoint_left]
    intro a ha hb
    obtain ⟨s, hs, rfl⟩ := Finset.mem_image.mp ha
    obtain ⟨p, hp, hpe⟩ := Finset.mem_image.mp hb
    have hs := Finset.mem_range.mp (Finset.mem_filter.mp hs).1
    have hp := Finset.mem_range.mp (Finset.mem_filter.mp hp).1
    exact (position_spec hr s hs).1 (hpe ▸ isParity_parityPosition hr p hp)
  have hsub : N.image (position r) ∪ M.image (parityPosition n r) ⊆ lost := by
    apply Finset.union_subset
    · intro a ha
      obtain ⟨s, hs, rfl⟩ := Finset.mem_image.mp ha
      exact (Finset.mem_filter.mp hs).2
    · intro a ha
      obtain ⟨p, hp, rfl⟩ := Finset.mem_image.mp ha
      exact (Finset.mem_filter.mp hp).2
  have hle := Finset.card_le_card hsub
  rw [Finset.card_union_of_disjoint hdisj,
    Finset.card_image_of_injective _ (position_strictMono r).injective,
    Finset.card_image_of_injective _ (parityPosition_injective n r)] at hle
  omega

/-- A word that is zero outside few sources and few groups is lost with them. -/
theorem not_symbolTolerates (hr : 1 ≤ r) {A : Nat → Nat → F} {c : Nat → F} {e s : Nat}
    (hs : s < k) (hc : c s ≠ 0) {N M : Finset Nat}
    (hN : ∀ s < n - localGroupNumber n r, s ∉ N → symbol A k c s = 0)
    (hM : ∀ p < localGroupNumber n r, p ∉ M →
      groupSum (n - localGroupNumber n r) r (symbol A k c) p = 0)
    (hcard : N.card + M.card ≤ e) : ¬ SymbolTolerates A n k r e := by
  intro h
  refine hc (h (N.image (position r) ∪ M.image (parityPosition n r)) ?_ c (fun p hp hnot => ?_) s hs)
  · refine (Finset.card_union_le _ _).trans (le_trans ?_ hcard)
    exact Nat.add_le_add Finset.card_image_le Finset.card_image_le
  · simp only [Finset.mem_union, Finset.mem_image, not_or, not_exists, not_and] at hnot
    rcases position_cases hr p hp with ⟨s, hs, rfl⟩ | ⟨i, hi, rfl⟩
    · rw [stripeSymbol_position hr _ s hs]
      exact hN s hs (fun hmem => hnot.1 s hmem rfl)
    · rw [stripeSymbol_group hr _ hi]
      exact hM i hi (fun hmem => hnot.2 i hmem rfl)

end Symbols

section Enough

variable {F : Type} [Field F] [CharP F 2] {A : Nat → Nat → F} {n k r : Nat}

omit [CharP F 2] in
theorem groupSum_single {m : Nat} {u : Nat → F} {s : Nat} (hs : s < m)
    (h : ∀ t < m, t ≠ s → t / r = s / r → u t = 0) : groupSum m r u (s / r) = u s := by
  apply Finset.sum_eq_single s
  · intro t ht hne
    obtain ⟨hlt, hdiv⟩ := Finset.mem_filter.mp ht
    exact h t (Finset.mem_range.mp hlt) hne hdiv
  · intro hnot
    exact absurd (by simpa using hs) hnot

omit [CharP F 2] in
/-- The first group, where it holds the data and the first two global parities. -/
theorem groupSum_zero_eq {m : Nat} {u : Nat → F} (hm : min m r = k + 2)
    (h : ∑ s ∈ Finset.range (k + 1), u s = 0) : groupSum m r u 0 = u (k + 1) := by
  have hset : {s ∈ Finset.range m | s / r = 0} = Finset.range (k + 2) := by
    ext s
    simp only [Finset.mem_filter, Finset.mem_range, Nat.div_eq_zero_iff]
    omega
  rw [groupSum, hset, Finset.sum_range_succ, h, zero_add]

/-- The first global parity is the sum of the data. -/
theorem sum_first {m : Nat} (hone : OnesFirst A k m) (hm : 0 < m) (c : Nat → F) :
    ∑ s ∈ Finset.range (k + 1), symbol A k c s = 0 := by
  have hdata : ∑ s ∈ Finset.range k, symbol A k c s = ∑ s ∈ Finset.range k, c s :=
    Finset.sum_congr rfl (fun s hs => symbol_data A c (Finset.mem_range.mp hs))
  have hfirst : symbol A k c k = ∑ s ∈ Finset.range k, c s := by
    rw [symbol, if_neg (lt_irrefl k), Nat.sub_self]
    apply Finset.sum_congr rfl
    intro i hi
    rw [hone hm i (Finset.mem_range.mp hi), one_mul]
  rw [Finset.sum_range_succ, hdata, hfirst, CharTwo.add_self_eq_zero]

/-- A word that is not zero, with its nonzero symbols in `N` and its nonzero group sums in `M`. -/
structure Support (A : Nat → Nat → F) (k g r : Nat) (c : Nat → F) (N M : Finset Nat) : Prop where
  nonzero : ∃ s < k, c s ≠ 0
  sources : ∀ t < k + g, symbol A k c t ≠ 0 → t ∈ N
  sums : ∀ t < k + g, groupSum (k + g) r (symbol A k c) (t / r) ≠ 0 → t / r ∈ M

section Supports

variable {g : Nat} {c : Nat → F} {N M : Finset Nat}

omit [CharP F 2] in
theorem Support.lt_card (h : Support A k g r c N M) (hA : Mds A k g) : g < N.card := by
  obtain ⟨s, hs, hc⟩ := h.nonzero
  exact hA.lt_card hs hc h.sources

omit [CharP F 2] in
theorem Support.zeros_lt (h : Support A k g r c N M) (hA : Mds A k g) {Z : Finset Nat}
    (hsub : Z ⊆ Finset.range (k + g)) (hZ : ∀ t ∈ Z, symbol A k c t = 0) : Z.card < k := by
  obtain ⟨s, hs, hc⟩ := h.nonzero
  have := hA.lt_card hs hc (N := Finset.range (k + g) \ Z) (fun t ht hne =>
    Finset.mem_sdiff.mpr ⟨Finset.mem_range.mpr ht, fun hmem => hne (hZ t hmem)⟩)
  rw [Finset.card_sdiff_of_subset hsub, Finset.card_range] at this
  omega

omit [CharP F 2] in
/-- Without global parities, the only source of a word has a parity. -/
theorem Support.noGlobal (h : Support A k 0 r c N M) (hA : Mds A k 0) : 1 < N.card + M.card := by
  have hcard := h.lt_card hA
  obtain ⟨s, hs, hc⟩ := h.nonzero
  rcases Nat.lt_or_ge 1 N.card with h2 | h1
  · omega
  · have hs0 : symbol A k c s ≠ 0 := by rwa [symbol_data A c hs]
    have hothers : ∀ t < k + 0, t ≠ s → t / r = s / r → symbol A k c t = 0 := by
      intro t ht hne _
      by_contra ht0
      exact hne (Finset.card_le_one.mp h1 t (h.sources t ht ht0) s (h.sources s (by omega) hs0))
    have := h.sums s (by omega) (by rwa [groupSum_single (by omega) hothers])
    have := Finset.card_pos.mpr ⟨_, this⟩
    omega

omit [CharP F 2] in
/-- In groups of one, every source is its own parity. -/
theorem Support.single (h : Support A k g 1 c N M) (hA : Mds A k g) : g < M.card := by
  obtain ⟨s, hs, hc⟩ := h.nonzero
  apply hA.lt_card hs hc
  intro t ht ht0
  have hsum := groupSum_single (r := 1) (u := symbol A k c) ht (fun t' _ hne hdiv => by
    rw [Nat.div_one, Nat.div_one] at hdiv
    exact absurd hdiv hne)
  rw [← Nat.div_one t]
  exact h.sums t ht (by rwa [hsum])

theorem Support.oneTwo (h : Support A 1 2 r c N M) (hA : Mds A 1 2) (hone : OnesFirst A 1 2) (hr : 3 ≤ r) :
    0 < M.card := by
  have hne : symbol A 1 c 2 ≠ 0 := fun h0 => by
    simpa using h.zeros_lt hA (Z := {2}) (by decide) (by simpa using h0)
  have hsum := groupSum_zero_eq (r := r) (m := 1 + 2) (by omega) (sum_first hone (by decide) c)
  have hmem := h.sums 0 (by decide)
  rw [Nat.zero_div] at hmem
  exact Finset.card_pos.mpr ⟨0, hmem (by rwa [hsum])⟩

theorem Support.oneThree (h : Support A 1 3 3 c N M) (hA : Mds A 1 3) (hone : OnesFirst A 1 3) :
    1 < M.card := by
  have hne : ∀ t < 4, symbol A 1 c t ≠ 0 := fun t ht h0 => by
    simpa using h.zeros_lt hA (Z := {t}) (by simpa using ht) (by simpa using h0)
  have hsum := groupSum_zero_eq (r := 3) (m := 1 + 3) (by omega) (sum_first hone (by decide) c)
  have hsum' := groupSum_single (r := 3) (m := 1 + 3) (u := symbol A 1 c) (s := 3) (by decide) (by
    intro t ht hne hdiv
    omega)
  have h0 := h.sums 0 (by decide) (by rw [hsum]; exact hne 2 (by decide))
  have h1 := h.sums 3 (by decide) (by rw [hsum']; exact hne 3 (by decide))
  exact Finset.one_lt_card.mpr ⟨_, h0, _, h1, by decide⟩

theorem Support.twoThree (h : Support A 2 3 4 c N M) (hA : Mds A 2 3) (hone : OnesFirst A 2 3) :
    0 < M.card := by
  have hne : symbol A 2 c 3 ≠ 0 ∨ symbol A 2 c 4 ≠ 0 := by
    by_contra h0
    push Not at h0
    simpa using h.zeros_lt hA (Z := {3, 4}) (by decide) (by simpa using h0)
  have hsum := groupSum_zero_eq (r := 4) (m := 2 + 3) (by omega) (sum_first hone (by decide) c)
  have hsum' := groupSum_single (r := 4) (m := 2 + 3) (u := symbol A 2 c) (s := 4) (by decide) (by
    intro t ht hne hdiv
    omega)
  rcases hne with h3 | h4
  · exact Finset.card_pos.mpr ⟨_, h.sums 0 (by decide) (by rwa [hsum])⟩
  · exact Finset.card_pos.mpr ⟨_, h.sums 4 (by decide) (by rwa [hsum'])⟩

end Supports

theorem symbolTolerates_of_spared (hv : Valid n k r) (hA : Mds A k (globalNumber n k r))
    (hone : OnesFirst A k (globalNumber n k r)) (h : Spared n k r) :
    SymbolTolerates A n k r (globalNumber n k r + globalNumber n k r / r + 1) := by
  apply symbolTolerates_of_weight hv.r_pos
  intro c s hs hc N M hN hM
  rw [sources_eq hv] at hN hM
  have hword : Support A k (globalNumber n k r) r c N M :=
    ⟨⟨s, hs, hc⟩, hN, fun t ht => hM _ (lt_groupCount hv.r_pos t (by rw [sources_eq hv]; exact ht)).1⟩
  have hcard := hword.lt_card hA
  unfold Spared at h
  generalize globalNumber n k r = g at *
  rcases h with rfl | rfl | ⟨rfl, rfl, h3⟩ | ⟨rfl, rfl, rfl⟩ | ⟨rfl, rfl, rfl⟩
  · have := hword.noGlobal hA
    rw [Nat.zero_div]
    omega
  · have := hword.single hA
    rw [Nat.div_one]
    omega
  · have := hword.oneTwo hA hone h3
    rw [Nat.div_eq_of_lt (by omega)]
    omega
  · have := hword.oneThree hA hone
    omega
  · have := hword.twoThree hA hone
    omega

end Enough

end OptLrc.Tolerance
