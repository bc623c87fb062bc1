import OptLrc.Distance

namespace OptLrc.Bound

open OptLrc.Galois OptLrc.Memory OptLrc.Jerasure OptLrc.Encoder OptLrc.Stripe OptLrc.Distance

section Symbols

variable {F : Type} [Field F]

/-- Fewer than `k` linear conditions leave a nonzero choice of `k` symbols. -/
theorem exists_ne_zero (k m : Nat) (hm : m < k) (row : Nat → Nat → F) :
    ∃ c : Nat → F, (∃ s < k, c s ≠ 0) ∧ ∀ j < m, ∑ i ∈ Finset.range k, row j i * c i = 0 := by
  let f : (Fin k → F) →ₗ[F] (Fin m → F) :=
    LinearMap.pi (fun j => ∑ i : Fin k, row j i • LinearMap.proj i)
  have hker : LinearMap.ker f ≠ ⊥ := f.ker_ne_bot_of_finrank_lt (by simpa using hm)
  obtain ⟨v, hv, hne⟩ := (Submodule.ne_bot_iff _).mp hker
  refine ⟨fun i => if h : i < k then v ⟨i, h⟩ else 0, ?_, fun j hj => ?_⟩
  · obtain ⟨s, hs⟩ := Function.ne_iff.mp hne
    exact ⟨s, s.2, by simpa using hs⟩
  · have := congrFun (LinearMap.mem_ker.mp hv) ⟨j, hj⟩
    rw [← Fin.sum_univ_eq_sum_range (fun i => row j i * if h : i < k then v ⟨i, h⟩ else 0)]
    simpa [f] using this

/-- The symbols of the sources after the first `globalNumber + 1` can all be zero. -/
theorem exists_symbols {n k r : Nat} (hv : Valid n k r) (global : Nat → Nat → F) :
    ∃ c : Nat → F, (∃ s < k, c s ≠ 0) ∧
      ∀ s, globalNumber n k r < s → s < n - localGroupNumber n r → symbol global k c s = 0 := by
  obtain ⟨c, hne, hc⟩ := exists_ne_zero k (k - 1) (by have := hv.k_pos; omega)
    (fun j => coefficient global k (globalNumber n k r + 1 + j))
  refine ⟨c, hne, fun s hlt hs => ?_⟩
  have hg := sources_eq hv
  have := hc (s - (globalNumber n k r + 1)) (by omega)
  rw [Nat.add_sub_cancel' (by omega)] at this
  rwa [symbol_eq_sum]

/-- The positions of the first `m` sources and of the parities of their groups. -/
def leading (n r m : Nat) : Finset Nat :=
  (Finset.range m).image (position r) ∪ (Finset.range ((m - 1) / r + 1)).image (parityPosition n r)

theorem card_leading_le (n r m : Nat) : (leading n r m).card ≤ m + ((m - 1) / r + 1) := by
  refine (Finset.card_union_le _ _).trans (Nat.add_le_add ?_ ?_)
  · exact Finset.card_image_le.trans (by simp)
  · exact Finset.card_image_le.trans (by simp)

theorem stripeSymbol_eq_zero {n r : Nat} (hr : 1 ≤ r) (source : Nat → F) (m : Nat)
    (h : ∀ s, m ≤ s → s < n - localGroupNumber n r → source s = 0) (p : Nat) (hp : p < n)
    (hnot : p ∉ leading n r m) : stripeSymbol n r source p = 0 := by
  simp only [leading, Finset.mem_union, Finset.mem_image, Finset.mem_range, not_or, not_exists,
    not_and] at hnot
  rcases position_cases hr p hp with ⟨s, hs, rfl⟩ | ⟨i, hi, rfl⟩
  · rw [stripeSymbol_position hr source s hs]
    refine h s ?_ hs
    by_contra hlt
    exact hnot.1 s (by omega) rfl
  · rw [stripeSymbol_parity hr source i hi]
    refine Finset.sum_eq_zero (fun ii hii => h _ ?_ ?_)
    · have hge : (m - 1) / r < i := by
        by_contra hlt
        exact hnot.2 i (by omega) rfl
      have := (Nat.div_lt_iff_lt_mul (by omega)).mp hge
      omega
    · have := Finset.mem_range.mp hii
      unfold groupCount at this
      omega

end Symbols

section Blocks

variable {V : CodingMatrix} {n k r size : Nat}

/-- Whatever the global coefficients, two stripes differ in at most `cal` positions, so a
loss of `cal` blocks cannot always be repaired. -/
theorem exists_stripes_within_cal (global : Nat → Nat → Byte) (hv : Valid n k r) (h8 : 8 ∣ size)
    (hsize : 0 < size) (hone : ∀ count ≤ n, ∀ j < count, V count 1 0 j = 1) :
    (∃ x y : Tuple k size, x ≠ y ∧ ∃ sx sy,
      allBlocksWith V global n k r size x.ptrs = .ok sx ∧
      allBlocksWith V global n k r size y.ptrs = .ok sy ∧
      (((Finset.range n).filter (fun p => sx[p]? ≠ sy[p]?)).card : Int) ≤ cal n k r) ∧
    ∀ e : Nat, cal n k r ≤ e → ¬ Tolerates V global n k r size e := by
  obtain ⟨c, ⟨s, hs, hne⟩, hc⟩ := exists_symbols hv global
  have hone : ∀ count < n, ∀ j < count, V count 1 0 j = 1 := fun count hc => hone count hc.le
  have hcal := cal_eq hv
  have hcard := card_leading_le n r (globalNumber n k r + 1)
  have hzero := stripeSymbol_eq_zero hv.r_pos (symbol global k c) (globalNumber n k r + 1) hc
  refine ⟨⟨spread k size c, spread k size 0, fun he => hne ?_, _, _,
    allBlocksWith_tuple global hv h8 hone _, allBlocksWith_tuple global hv h8 hone _, ?_⟩, ?_⟩
  · have := congrArg (fun x => (x.block s).getD 0 0) he
    simpa only [getD_spread c s 0 hs, getD_spread 0 s 0 hs, hsize, if_true, Pi.zero_apply] using this
  · refine le_trans ?_ (hcal ▸ Int.ofNat_le.mpr (hcard.trans (by simp; omega)))
    refine Int.ofNat_le.mpr (Finset.card_le_card (fun p hp => ?_))
    simp only [Finset.mem_filter, Finset.mem_range] at hp
    by_contra hnot
    exact hp.2 ((stripeOf_spread global hsize c p hp.1).mpr (hzero p hp.1 hnot))
  · intro e he ht
    refine hne ((tolerates_iff global e hv h8 hsize hone).mp ht _ ?_ c hzero s hs)
    simp only [Nat.add_sub_cancel] at hcard
    omega

theorem exists_stripes_within_cal_six : cal 6 3 2 = 3 ∧
    ¬ Tolerates (fun _ _ _ _ => 1) (fun _ i => Byte.ofNat i) 6 3 2 8 3 :=
  ⟨by decide, (exists_stripes_within_cal _ ⟨by decide, by decide, by decide⟩ (by decide) (by decide)
    (fun _ _ _ _ => rfl)).2 3 (by decide)⟩

end Blocks

end OptLrc.Bound
