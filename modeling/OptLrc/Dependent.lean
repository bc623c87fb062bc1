import OptLrc.Tolerance

namespace OptLrc.Dependent

open OptLrc.Galois OptLrc.Memory OptLrc.Jerasure OptLrc.Encoder OptLrc.Stripe OptLrc.Distance
  OptLrc.Codes OptLrc.Tolerance

/-- The sources `N` of a word can be given values for which group `p` has a zero parity.
The values of the data and of the first global parity are given, and their sum is zero. -/
inductive Cancels (k r : Nat) (N : Finset Nat) (p : Nat) : Prop
  | free (s t : Nat) (hs : s ∈ N ∧ s / r = p ∧ k < s) (ht : t ∈ N ∧ t / r = p ∧ k < t) (hne : s ≠ t)
  | alone (s x : Nat) (hs : s ∈ N ∧ s / r = p ∧ k < s) (hx : x ∈ N ∧ x / r = p ∧ x ≤ k)
      (h : ∀ y ∈ N, y / r = p → y ≤ k → y = x)
  | other (s x : Nat) (hs : s ∈ N ∧ s / r = p ∧ k < s) (hx : x ∈ N ∧ x / r ≠ p ∧ x ≤ k)
      (h : ∀ y ∈ N, y / r ≠ p → y ≤ k → y = x)
  | none (h : ∀ s ∈ N, s / r ≠ p)
  | whole (h : ∀ s ∈ N, s / r = p ↔ s ≤ k)

section Values

variable {F : Type} [Field F] {k r : Nat} {N : Finset Nat} {p : Nat}

theorem Cancels.exists_values (hF : ∀ x : F, ∃ y, y ≠ 0 ∧ y ≠ x) (h : Cancels k r N p) {u : Nat → F}
    (hu : ∀ s ∈ N, u s ≠ 0) (h0 : ∑ s ∈ N with s ≤ k, u s = 0) :
    ∃ v : Nat → F, (∀ s ∈ N, s / r = p → k < s → v s ≠ 0) ∧
      ∑ s ∈ N with s / r = p, (if s ≤ k then u s else v s) = 0 := by
  let J := {s ∈ N | s / r = p ∧ ¬ s ≤ k}
  let X := {s ∈ N | s / r = p ∧ s ≤ k}
  have hJ : ∀ {s}, s ∈ N ∧ s / r = p ∧ k < s → s ∈ J :=
    fun h => Finset.mem_filter.mpr ⟨h.1, h.2.1, by omega⟩
  have hsplit : ∀ v : Nat → F, ∑ s ∈ N with s / r = p, (if s ≤ k then u s else v s) =
      ∑ s ∈ X, u s + ∑ s ∈ J, v s := by
    intro v
    rw [Finset.sum_ite, Finset.filter_filter, Finset.filter_filter]
  have hcases : (1 < J.card ∨ J.Nonempty ∧ -∑ s ∈ X, u s ≠ 0) ∨ J = ∅ ∧ ∑ s ∈ X, u s = 0 := by
    cases h with
    | free s t hs ht hne => exact .inl (.inl (Finset.one_lt_card.mpr ⟨s, hJ hs, t, hJ ht, hne⟩))
    | alone s x hs hx h =>
      refine .inl (.inr ⟨⟨s, hJ hs⟩, ?_⟩)
      have hX : X = {x} := by
        ext y
        simp only [X, Finset.mem_filter, Finset.mem_singleton]
        exact ⟨fun hy => h y hy.1 hy.2.1 hy.2.2, fun hy => hy ▸ hx⟩
      rw [hX, Finset.sum_singleton, neg_ne_zero]
      exact hu x hx.1
    | other s x hs hx h =>
      refine .inl (.inr ⟨⟨s, hJ hs⟩, ?_⟩)
      have hrest : {y ∈ N | y ≤ k ∧ ¬ y / r = p} = {x} := by
        ext y
        simp only [Finset.mem_filter, Finset.mem_singleton]
        exact ⟨fun hy => h y hy.1 hy.2.2 hy.2.1, fun hy => hy ▸ ⟨hx.1, hx.2.2, hx.2.1⟩⟩
      have hX : X = {y ∈ N | y ≤ k ∧ y / r = p} := by
        apply Finset.filter_congr
        intro y _
        exact and_comm
      rw [← Finset.sum_filter_add_sum_filter_not _ (fun s => s / r = p), Finset.filter_filter,
        Finset.filter_filter, hrest, Finset.sum_singleton, ← hX] at h0
      rw [neg_ne_zero, eq_neg_of_add_eq_zero_left h0, neg_ne_zero]
      exact hu x hx.1
    | none h =>
      refine .inr ⟨Finset.filter_eq_empty_iff.mpr (fun s hs hp => h s hs hp.1), ?_⟩
      rw [show X = ∅ from Finset.filter_eq_empty_iff.mpr (fun s hs hp => h s hs hp.1),
        Finset.sum_empty]
    | whole h =>
      refine .inr ⟨Finset.filter_eq_empty_iff.mpr (fun s hs hp => hp.2 ((h s hs).mp hp.1)), ?_⟩
      rw [← h0]
      apply Finset.sum_congr _ (fun _ _ => rfl)
      apply Finset.filter_congr
      intro s hs
      rw [h s hs, and_self]
  rcases hcases with h | ⟨hJ0, hX0⟩
  · obtain ⟨v, hv, hsum⟩ := exists_sum hF J _ h
    refine ⟨v, fun s hs hp hk => hv s (hJ ⟨hs, hp, hk⟩), ?_⟩
    rw [hsplit, hsum, add_neg_cancel]
  · refine ⟨1, fun _ _ _ _ => one_ne_zero, ?_⟩
    rw [hsplit, hJ0, hX0, Finset.sum_empty, add_zero]

/-- The values that the groups ask for, put together. -/
theorem exists_groupValues (hF : ∀ x : F, ∃ y, y ≠ 0 ∧ y ≠ x) {M : Finset Nat}
    (h : ∀ p, p ∉ M → Cancels k r N p) {u : Nat → F} (hu : ∀ s ∈ N, u s ≠ 0)
    (h0 : ∑ s ∈ N with s ≤ k, u s = 0) :
    ∃ v : Nat → F, (∀ s ∈ N, k < s → v s ≠ 0) ∧
      ∀ p, p ∉ M → ∑ s ∈ N with s / r = p, (if s ≤ k then u s else v s) = 0 := by
  have hval : ∀ p, ∃ v : Nat → F, (∀ s ∈ N, s / r = p → k < s → v s ≠ 0) ∧
      (p ∉ M → ∑ s ∈ N with s / r = p, (if s ≤ k then u s else v s) = 0) := by
    intro p
    by_cases hp : p ∈ M
    · exact ⟨1, fun _ _ _ _ => one_ne_zero, fun hnot => absurd hp hnot⟩
    · obtain ⟨v, hv, hsum⟩ := (h p hp).exists_values hF hu h0
      exact ⟨v, hv, fun _ => hsum⟩
  choose v hv hsum using hval
  refine ⟨fun s => v (s / r) s, fun s hs hk => hv (s / r) s hs rfl hk, fun p hp => ?_⟩
  rw [← hsum p hp]
  apply Finset.sum_congr rfl
  intro s hs
  simp only [(Finset.mem_filter.mp hs).2]

end Values

section Words

variable {F : Type} [Field F] [CharP F 2] {A : Nat → Nat → F} {n k r : Nat}

omit [CharP F 2] in
theorem exists_symbol_ne {c : Nat → F} {s : Nat} (h : symbol A k c s ≠ 0) : ∃ t < k, c t ≠ 0 := by
  by_contra hall
  push Not at hall
  apply h
  rw [symbol_eq_sum]
  exact Finset.sum_eq_zero (fun i hi => by rw [hall i (Finset.mem_range.mp hi), mul_zero])

/-- The coding rows can be scaled so that a word on few sources has few parities. -/
theorem exists_dependent (hF : ∀ x : F, ∃ y, y ≠ 0 ∧ y ≠ x) (hv : Valid n k r)
    (hg : 0 < globalNumber n k r) (hA : Mds A k (globalNumber n k r))
    (hone : OnesFirst A k (globalNumber n k r)) (N M : Finset Nat)
    (hN : N ⊆ Finset.range (k + globalNumber n k r)) (hcard : N.card = globalNumber n k r + 1)
    (hM : M.card ≤ globalNumber n k r / r) (h : ∀ p, p ∉ M → Cancels k r N p) :
    ∃ B : Nat → Nat → F, Mds B k (globalNumber n k r) ∧ OnesFirst B k (globalNumber n k r) ∧
      ¬ SymbolTolerates B n k r (globalNumber n k r + globalNumber n k r / r + 1) := by
  classical
  obtain ⟨c, hc⟩ := hA.exists_word hN hcard
  have hlt : ∀ s ∈ N, s < k + globalNumber n k r := fun s hs => Finset.mem_range.mp (hN hs)
  have hu : ∀ s ∈ N, symbol A k c s ≠ 0 := fun s hs => (hc s (hlt s hs)).mpr hs
  have hout : ∀ s < k + globalNumber n k r, s ∉ N → symbol A k c s = 0 := by
    intro s hs hnot
    by_contra hne
    exact hnot ((hc s hs).mp hne)
  have h0 : ∑ s ∈ N with s ≤ k, symbol A k c s = 0 := by
    rw [← sum_first hone hg c]
    apply Finset.sum_subset
    · intro s hs
      have := (Finset.mem_filter.mp hs).2
      exact Finset.mem_range.mpr (by omega)
    · intro s hs hnot
      have hs := Finset.mem_range.mp hs
      exact hout s (by omega) (fun hmem => hnot (Finset.mem_filter.mpr ⟨hmem, by omega⟩))
  obtain ⟨v, hv0, hsum⟩ := exists_groupValues hF h hu h0
  obtain ⟨B, hB, hBone, hlow, hhigh⟩ := hA.exists_scaled hone c
    (fun s => if s ∈ N then v s else 0) (fun s hs hk => by
      by_cases hmem : s ∈ N
      · simp [hmem, hv0 s hmem hk, hu s hmem]
      · simp [hmem, hout s hs hmem])
  have hB0 : ∀ s < k + globalNumber n k r, s ∉ N → symbol B k c s = 0 := by
    intro s hs hnot
    rcases Nat.lt_or_ge k s with hk | hk
    · rw [hhigh s hs hk, if_neg hnot]
    · rw [hlow s hk hs, hout s hs hnot]
  have hBsum : ∀ p, p ∉ M → groupSum (k + globalNumber n k r) r (symbol B k c) p = 0 := by
    intro p hp
    rw [← hsum p hp, groupSum]
    symm
    apply Finset.sum_subset_zero_on_sdiff
    · intro s hs
      obtain ⟨hmem, hdiv⟩ := Finset.mem_filter.mp hs
      exact Finset.mem_filter.mpr ⟨hN hmem, hdiv⟩
    · intro s hs
      simp only [Finset.mem_sdiff, Finset.mem_filter, Finset.mem_range, not_and] at hs
      exact hB0 s hs.1.1 (fun hmem => hs.2 hmem hs.1.2)
    · intro s hs
      have hmem := (Finset.mem_filter.mp hs).1
      split
      · next hk => rw [hlow s hk (hlt s hmem)]
      · next hk => rw [hhigh s (hlt s hmem) (by omega), if_pos hmem]
  obtain ⟨s, hs⟩ := Finset.card_pos.mp (by omega : 0 < N.card)
  obtain ⟨t, ht, hct⟩ := exists_symbol_ne (hu s hs)
  refine ⟨B, hB, hBone, not_symbolTolerates (N := N) (M := M) hv.r_pos ht hct ?_ ?_ (by omega)⟩
  · rw [sources_eq hv]
    exact hB0
  · rw [sources_eq hv]
    exact fun p _ hp => hBsum p hp

/-- The local parity of the first `g + 1` sources is a combination of the first global parity
and the data, whatever the other coding rows are. -/
theorem not_symbolTolerates_first (hv : Valid n k r) (hA : Mds A k (globalNumber n k r))
    (hone : OnesFirst A k (globalNumber n k r)) (hg : 0 < globalNumber n k r)
    (hr : globalNumber n k r < r) (hk : globalNumber n k r ≤ k) :
    ¬ SymbolTolerates A n k r (globalNumber n k r + globalNumber n k r / r + 1) := by
  have hkp := hv.k_pos
  obtain ⟨c, hc⟩ := hA.exists_word (N := Finset.range (globalNumber n k r + 1))
    (Finset.range_mono (by omega)) (Finset.card_range _)
  have hout : ∀ s < k + globalNumber n k r, globalNumber n k r < s → symbol A k c s = 0 := by
    intro s hs hlt
    by_contra hne
    have := Finset.mem_range.mp ((hc s hs).mp hne)
    omega
  have hc0 : c 0 ≠ 0 := by
    rw [← symbol_data A c hkp]
    exact (hc 0 (by omega)).mpr (Finset.mem_range.mpr (by omega))
  have hsum : ∀ p, groupSum (k + globalNumber n k r) r (symbol A k c) p = 0 := by
    intro p
    rcases Nat.eq_zero_or_pos p with rfl | hp
    · rw [groupSum, ← sum_first hone hg c]
      have hsub : Finset.range (globalNumber n k r + 1) ⊆ Finset.range (k + 1) :=
        Finset.range_mono (by omega)
      rw [← Finset.sum_subset hsub]
      · symm
        apply Finset.sum_subset
        · intro s hs
          have := Finset.mem_range.mp hs
          exact Finset.mem_filter.mpr ⟨Finset.mem_range.mpr (by omega), Nat.div_eq_of_lt (by omega)⟩
        · intro s hs hnot
          rw [Finset.mem_range] at hnot
          exact hout s (Finset.mem_range.mp (Finset.mem_filter.mp hs).1) (by omega)
      · intro s hs hnot
        rw [Finset.mem_range] at hs hnot
        exact hout s (by omega) (by omega)
    · apply Finset.sum_eq_zero
      intro s hs
      obtain ⟨hlt, rfl⟩ := Finset.mem_filter.mp hs
      have := (Nat.div_pos_iff.mp hp).2
      exact hout s (Finset.mem_range.mp hlt) (by omega)
  apply not_symbolTolerates (N := Finset.range (globalNumber n k r + 1)) (M := ∅) hv.r_pos hkp hc0
  · rw [sources_eq hv]
    intro s hs hnot
    rw [Finset.mem_range] at hnot
    exact hout s hs (by omega)
  · rw [sources_eq hv]
    exact fun p _ _ => hsum p
  · rw [Finset.card_range, Finset.card_empty, Nat.div_eq_of_lt hr]

end Words

section Choices

variable {k g r : Nat} {N : Finset Nat} {p : Nat}

theorem div_eq_iff (hr : 2 ≤ r) (s p : Nat) : s / r = p ↔ p * r ≤ s ∧ s < p * r + r := by
  constructor
  · rintro rfl
    exact ⟨Nat.div_mul_le_self s r, Nat.lt_div_mul_add (by omega)⟩
  · rintro ⟨h1, h2⟩
    exact Nat.div_eq_of_lt_le h1 (by rw [Nat.add_mul]; omega)

theorem cancels_pair (hr : 2 ≤ r) {s : Nat}
    (h : s ∈ N ∧ s + 1 ∈ N ∧ k < s ∧ p * r ≤ s ∧ s + 1 < p * r + r) : Cancels k r N p :=
  .free s (s + 1) ⟨h.1, (div_eq_iff hr s p).mpr (by omega), h.2.2.1⟩
    ⟨h.2.1, (div_eq_iff hr (s + 1) p).mpr (by omega), by omega⟩ (by omega)

theorem cancels_none (hr : 2 ≤ r) (h : ∀ s ∈ N, s < p * r ∨ p * r + r ≤ s) : Cancels k r N p := by
  apply Cancels.none
  intro s hs hdiv
  have := (div_eq_iff hr s p).mp hdiv
  have := h s hs
  omega

theorem cancels_whole (hr : 2 ≤ r) (h : ∀ s ∈ N, p * r ≤ s ∧ s < p * r + r ↔ s ≤ k) : Cancels k r N p := by
  apply Cancels.whole
  intro s hs
  rw [div_eq_iff hr]
  exact h s hs

/-- Some `g + 1` sources are in few groups whose parities cannot be made zero. -/
def ShortWord (k g r : Nat) : Prop :=
  ∃ N M : Finset Nat, N ⊆ Finset.range (k + g) ∧ N.card = g + 1 ∧ M.card ≤ g / r ∧
    ∀ p, p ∉ M → Cancels k r N p

theorem shortWord_of_Ico {a : Nat} {M : Finset Nat} (ha : a < k) (hM : M.card ≤ g / r)
    (h : ∀ p, p ∉ M → Cancels k r (Finset.Ico a (a + g + 1)) p) : ShortWord k g r := by
  refine ⟨Finset.Ico a (a + g + 1), M, ?_, ?_, hM, h⟩
  · intro s hs
    have := Finset.mem_Ico.mp hs
    exact Finset.mem_range.mpr (by omega)
  · rw [Nat.card_Ico]
    omega

/-- The first `g + 1` sources, all of one group. -/
theorem shortWord_first (hk : 1 ≤ k) (hr : 2 ≤ r) (hg : g < r) (hne : g ≠ k + 1) : ShortWord k g r := by
  apply shortWord_of_Ico (a := 0) (M := ∅) (by omega) (by simp)
  intro p _
  rcases Nat.eq_zero_or_pos p with rfl | hp
  · rcases Nat.lt_or_ge k g with hlt | hge
    · apply cancels_pair hr (s := k + 1)
      rw [Finset.mem_Ico, Finset.mem_Ico]
      omega
    · apply cancels_whole hr
      intro s hs
      rw [Finset.mem_Ico] at hs
      omega
  · apply cancels_none hr
    intro s hs
    rw [Finset.mem_Ico] at hs
    have := Nat.le_mul_of_pos_left r hp
    omega

/-- The sources of one group after the first. -/
theorem shortWord_second (hk : 2 ≤ k) (hr : k + 3 ≤ r) : ShortWord k (k + 1) r := by
  apply shortWord_of_Ico (a := 1) (M := ∅) (by omega) (by simp)
  intro p _
  rcases Nat.eq_zero_or_pos p with rfl | hp
  · apply cancels_pair (by omega) (s := k + 1)
    rw [Finset.mem_Ico, Finset.mem_Ico]
    omega
  · apply cancels_none (by omega)
    intro s hs
    rw [Finset.mem_Ico] at hs
    have := Nat.le_mul_of_pos_left r hp
    omega

/-- The first group ends with the second global parity, which is left out of the word. -/
theorem shortWord_split (hk : 3 ≤ k) : ShortWord k (k + 1) (k + 2) := by
  have hmem : ∀ s, s ∈ Finset.Ico 1 (k + 1) ∪ Finset.Ico (k + 2) (k + 4) ↔
      1 ≤ s ∧ s ≤ k ∨ k + 2 ≤ s ∧ s < k + 4 := by
    intro s
    rw [Finset.mem_union, Finset.mem_Ico, Finset.mem_Ico]
    omega
  refine ⟨Finset.Ico 1 (k + 1) ∪ Finset.Ico (k + 2) (k + 4), ∅, ?_, ?_, by simp, fun p _ => ?_⟩
  · intro s hs
    rw [hmem] at hs
    exact Finset.mem_range.mpr (by omega)
  · rw [Finset.card_union_of_disjoint, Nat.card_Ico, Nat.card_Ico]
    · omega
    · rw [Finset.disjoint_left]
      intro s hs ht
      rw [Finset.mem_Ico] at hs ht
      omega
  · rcases p with _ | _ | p
    · apply cancels_whole (by omega)
      intro s hs
      rw [hmem] at hs
      omega
    · apply cancels_pair (by omega) (s := k + 2)
      rw [hmem, hmem]
      omega
    · apply cancels_none (by omega)
      intro s hs
      rw [hmem] at hs
      rw [Nat.add_mul, Nat.add_mul]
      omega

/-- The last data block and the global parities: every group of them cancels, but the one
of the data block, and the last if it has one source. -/
theorem cancels_last (hk : 1 ≤ k) (hr : 2 ≤ r) (hg : r ≤ g) (hp : p ≠ (k - 1) / r)
    (hlast : p * r + 1 ≠ k + g) : Cancels k r (Finset.Ico (k - 1) (k - 1 + g + 1)) p := by
  have hnone : ¬ (p * r ≤ k - 1 ∧ k - 1 < p * r + r) :=
    fun h => hp ((div_eq_iff hr _ _).mpr h).symm
  rcases Nat.lt_trichotomy (p * r) k with h | h | h
  · apply cancels_none hr
    intro s hs
    rw [Finset.mem_Ico] at hs
    omega
  · apply Cancels.alone (k + 1) k
    · rw [Finset.mem_Ico, div_eq_iff hr]
      omega
    · rw [Finset.mem_Ico, div_eq_iff hr]
      omega
    · intro y _ hy hle
      rw [div_eq_iff hr] at hy
      omega
  · rcases Nat.lt_or_ge (p * r) (k + g) with hin | hout
    · apply cancels_pair hr (s := p * r)
      rw [Finset.mem_Ico, Finset.mem_Ico]
      omega
    · apply cancels_none hr
      intro s hs
      rw [Finset.mem_Ico] at hs
      omega

theorem shortWord_many (hk : 1 ≤ k) (hr : 2 ≤ r) (hg : 2 * r ≤ g) : ShortWord k g r := by
  have hq : 2 ≤ g / r := (Nat.le_div_iff_mul_le (by omega)).mpr hg
  apply shortWord_of_Ico (a := k - 1) (M := {(k - 1) / r, (k + g - 1) / r}) (by omega)
    (Finset.card_le_two.trans hq)
  intro p hp
  simp only [Finset.mem_insert, Finset.mem_singleton, not_or] at hp
  apply cancels_last hk hr (by omega) hp.1
  intro hlast
  apply hp.2
  rw [eq_comm, div_eq_iff hr]
  omega

theorem shortWord_full (hk : 1 ≤ k) (hr : 2 ≤ r) (hg : r ≤ g) (hdvd : ¬ r ∣ k + g - 1) :
    ShortWord k g r := by
  have hq : 1 ≤ g / r := (Nat.le_div_iff_mul_le (by omega)).mpr (by omega)
  apply shortWord_of_Ico (a := k - 1) (M := {(k - 1) / r}) (by omega) (by simpa using hq)
  intro p hp
  apply cancels_last hk hr hg (by simpa using hp)
  intro hlast
  exact hdvd ⟨p, by rw [Nat.mul_comm]; omega⟩

/-- The group of the last data block is full, and it has no global parity or two and more
after the first. -/
theorem shortWord_equal (hk : 1 ≤ k) (hr : 2 ≤ r) (hne : r ≠ 3) (hdvd : r ∣ k - 1) : ShortWord k r r := by
  obtain ⟨q, hq⟩ := hdvd
  rw [Nat.mul_comm] at hq
  apply shortWord_of_Ico (a := k - 1) (M := {q + 1}) (by omega) (by
    rw [Finset.card_singleton, Nat.div_self (by omega)])
  intro p hp
  rw [Finset.mem_singleton] at hp
  by_cases hpq : p = q
  · subst hpq
    by_cases h : r < 3
    · apply cancels_whole hr
      intro s hs
      rw [Finset.mem_Ico] at hs
      omega
    · apply cancels_pair hr (s := k + 1)
      rw [Finset.mem_Ico, Finset.mem_Ico]
      omega
  · apply cancels_last hk hr le_rfl
    · rw [hq, Nat.mul_div_cancel _ (by omega)]
      exact hpq
    · intro hlast
      apply hp
      apply Nat.eq_of_mul_eq_mul_right (show 0 < r by omega)
      rw [Nat.add_mul]
      omega

/-- The last two data blocks and the global parities but the last, which is alone in its
group. The sources are in two groups, and the second cancels. -/
theorem shortWord_two (hk : 2 ≤ k) (hr : 2 ≤ r) (hg : r ≤ g) (hlt : g < 2 * r) (hdvd : r ∣ k + g - 1)
    (h : r < g ∨ r = 3) : ShortWord k g r := by
  obtain ⟨m, hm⟩ := hdvd
  obtain ⟨q, rfl⟩ : ∃ q, m = q + 2 := by
    refine ⟨m - 2, ?_⟩
    by_contra hne
    have := Nat.mul_le_mul_left r (show m ≤ 1 by omega)
    omega
  rw [Nat.mul_comm, Nat.add_mul] at hm
  have hq : 1 ≤ g / r := (Nat.le_div_iff_mul_le (by omega)).mpr (by omega)
  apply shortWord_of_Ico (a := k - 2) (M := {q}) (by omega) (by simpa using hq)
  intro p hp
  rw [Finset.mem_singleton] at hp
  rcases Nat.lt_trichotomy p (q + 1) with hpq | rfl | hpq
  · apply cancels_none hr
    intro s hs
    rw [Finset.mem_Ico] at hs
    have := Nat.mul_le_mul_right r (show p + 1 ≤ q by omega)
    rw [Nat.add_mul] at this
    omega
  · have e : (q + 1) * r = q * r + r := by rw [Nat.add_mul, Nat.one_mul]
    rcases Nat.lt_trichotomy g (r + 1) with h' | h' | h'
    · apply Cancels.other (k + 1) (k - 2)
      · rw [Finset.mem_Ico, div_eq_iff hr]
        omega
      · rw [Finset.mem_Ico, Ne, div_eq_iff hr]
        omega
      · intro y hy hne hle
        rw [Finset.mem_Ico] at hy
        rw [Ne, div_eq_iff hr] at hne
        omega
    · apply Cancels.alone (k + 1) k
      · rw [Finset.mem_Ico, div_eq_iff hr]
        omega
      · rw [Finset.mem_Ico, div_eq_iff hr]
        omega
      · intro y _ hy hle
        rw [div_eq_iff hr] at hy
        omega
    · apply cancels_pair hr (s := (q + 1) * r)
      rw [Finset.mem_Ico, Finset.mem_Ico]
      omega
  · apply cancels_none hr
    intro s hs
    rw [Finset.mem_Ico] at hs
    have := Nat.mul_le_mul_right r (show q + 2 ≤ p by omega)
    rw [Nat.add_mul] at this
    omega

theorem shortWord_of_not_spared (hk : 1 ≤ k) (hr : 2 ≤ r) (h1 : ¬ (k = 1 ∧ g = 2 ∧ 3 ≤ r))
    (h2 : ¬ (k = 1 ∧ g = 3 ∧ r = 3)) (h3 : ¬ (k = 2 ∧ g = 3 ∧ r = 4)) : ShortWord k g r := by
  rcases Nat.lt_or_ge g r with hg | hg
  · by_cases hne : g = k + 1
    · subst hne
      rcases Nat.lt_or_ge r (k + 3) with hr3 | hr3
      · obtain rfl : r = k + 2 := by omega
        exact shortWord_split (by omega)
      · exact shortWord_second (by omega) hr3
    · exact shortWord_first hk hr hg hne
  · rcases Nat.lt_or_ge g (2 * r) with hlt | hge
    · by_cases hdvd : r ∣ k + g - 1
      · by_cases heq : g = r ∧ r ≠ 3
        · obtain ⟨rfl, hne⟩ := heq
          apply shortWord_equal hk hr hne
          have := (Nat.dvd_sub hdvd (dvd_refl g))
          rwa [show k + g - 1 - g = k - 1 by omega] at this
        · have h' : r < g ∨ r = 3 := by omega
          refine shortWord_two ?_ hr hg hlt hdvd h'
          by_contra hk2
          obtain rfl : k = 1 := by omega
          obtain ⟨m, hm⟩ := hdvd
          have : m < 2 := by
            by_contra hm2
            have := Nat.mul_le_mul_left r (Nat.le_of_not_lt hm2)
            omega
          interval_cases m <;> omega
      · exact shortWord_full hk hr hg hdvd
    · exact shortWord_many hk hr hge

end Choices

section Matrices

/-- One systematic code for all sizes, with the bytes as its points. -/
noncomputable def pointCode : CodingMatrix := fun k _ => pointMatrix Byte.ofNat k

theorem ofNat_injOn {m : Nat} (hm : m ≤ 256) : Set.InjOn Byte.ofNat (Finset.range m) := by
  intro s hs t ht h
  have hs := Finset.mem_range.mp (Finset.mem_coe.mp hs)
  have ht := Finset.mem_range.mp (Finset.mem_coe.mp ht)
  have he : (⟨s, by omega⟩ : Fin 256) = ⟨t, by omega⟩ := ofNat_bijective.1 h
  exact Fin.mk.inj he

theorem systematic_pointCode : Systematic pointCode where
  ones := fun _ _ j hm hkm hj => pointMatrix_ones (ofNat_injOn hkm) hm j hj
  mds := fun k m hkm => by
    rcases Nat.eq_zero_or_pos m with rfl | hm
    · exact mds_zero _ k
    · exact mds_pointMatrix hm (ofNat_injOn hkm)

/-- The code `V` with the coding rows `B` for `k` data blocks and `m` parities. -/
def withRows (V : CodingMatrix) (k m : Nat) (B : Nat → Nat → Byte) : CodingMatrix :=
  fun k' m' => if k' = k ∧ m' = m then B else V k' m'

theorem systematic_withRows {V : CodingMatrix} (hV : Systematic V) {k m : Nat} {B : Nat → Nat → Byte}
    (hB : Mds B k m) (hone : OnesFirst B k m) : Systematic (withRows V k m B) where
  ones := fun k' m' j hm hkm hj => by
    unfold withRows
    split
    · next h =>
      obtain ⟨rfl, rfl⟩ := h
      exact hone hm j hj
    · exact hV.ones k' m' j hm hkm hj
  mds := fun k' m' hkm => by
    unfold withRows
    split
    · next h =>
      obtain ⟨rfl, rfl⟩ := h
      exact hB
    · exact hV.mds k' m' hkm

end Matrices

section Blocks

variable {V : CodingMatrix} {n k r : Nat}

theorem faultTolerant_iff_symbols (hn : n ≤ 256) (hv : Valid n k r) (hV : FirstRowOnes V) :
    FaultTolerant V n k r ↔ SymbolTolerates (V k (globalNumber n k r)) n k r
      (globalNumber n k r + globalNumber n k r / r + 1) := by
  have hone : ∀ count < n, ∀ j < count, V count 1 0 j = 1 :=
    fun count hc j hj => hV count 1 j (by omega) (by omega) hj
  have hcal : ∀ m : Nat, (m : Int) ≤ cal n k r - 1 ↔
      m ≤ globalNumber n k r + globalNumber n k r / r + 1 := by
    intro m
    rw [cal_eq hv]
    omega
  have htol : FaultTolerant V n k r ↔ ∀ size, 8 ∣ size → Tolerates V (V k (globalNumber n k r)) n k r size
      (globalNumber n k r + globalNumber n k r / r + 1) := by
    simp only [FaultTolerant, Tolerates, hcal, allBlocks_eq_allBlocksWith]
  rw [htol]
  constructor
  · intro h
    exact (tolerates_iff _ _ hv (dvd_refl 8) (by decide) hone).mp (h 8 (dvd_refl 8))
  · intro h size h8
    rcases Nat.eq_zero_or_pos size with rfl | hsize
    · refine ⟨_, allBlocksWith_tuple _ hv h8 hone, fun _ _ x y _ => Tuple.ext_block (fun s hs => ?_)⟩
      rw [List.eq_nil_of_length_eq_zero (x.length_block' s hs),
        List.eq_nil_of_length_eq_zero (y.length_block' s hs)]
    · exact (tolerates_iff _ _ hv h8 hsize hone).mpr h

theorem exists_two_le (x : Byte) : ∃ y : Byte, y ≠ 0 ∧ y ≠ x := by
  by_cases h : x = 1
  · exact ⟨Byte.ofNat 2, by decide, by rw [h]; decide⟩
  · exact ⟨1, one_ne_zero, fun h1 => h h1.symm⟩

end Blocks

end OptLrc.Dependent
