import OptLrc.Capacity

namespace OptLrc.Flat

open OptLrc.Memory OptLrc.Encoder OptLrc.Stripe OptLrc.Distance OptLrc.Layout OptLrc.Placement
open OptLrc.Simulator OptLrc.Groups OptLrc.RandomRacks OptLrc.Capacity

variable {n k r : Nat}

/-- The number of blocks of local group `i`. -/
def groupSize (n r i : Nat) : Nat := (List.range n).countP (fun p => p / (r + 1) = i)

def isData (node : Name) : Bool := node.head? = some 'D'

/-- One block per rack. -/
def flatRacks (n k r : Nat) : List (List Name) := (nodeStable n k r).map (fun node => [node])

section Sizes

theorem groupSize_full {i : Nat} (h : i < n / (r + 1)) : groupSize n r i = r + 1 := by
  have hle := Nat.mul_le_mul_right (r + 1) (Nat.succ_le_of_lt h)
  have hn := Nat.div_mul_le_self n (r + 1)
  rw [Nat.succ_mul] at hle
  rw [groupSize, countP_div_eq (by omega)]
  omega

theorem groupSize_last (n r : Nat) : groupSize n r (n / (r + 1)) = n % (r + 1) := by
  have hn := Nat.div_add_mod' n (r + 1)
  have hlt := Nat.mod_lt n (show 0 < r + 1 by omega)
  rw [groupSize, countP_div_eq (by omega)]
  omega

/-- A sum over the members of `q` full groups of `d` and of `e` members of the next. -/
theorem sum_div {d e : Nat} (q : Nat) (f : Nat → Nat) {a : Nat} (he : e ≤ d) (hf : ∀ i < q, f i = a) :
    ∑ s ∈ Finset.range (q * d + e), f (s / d) = q * d * a + e * f q := by
  rw [Finset.sum_range_add]
  congr 1
  · rw [Finset.sum_const_nat (m := a), Finset.card_range]
    intro s hs
    exact hf _ (Nat.div_lt_of_lt_mul (by rw [Nat.mul_comm]; exact Finset.mem_range.mp hs))
  · rw [Finset.sum_const_nat (m := f q), Finset.card_range]
    intro x hx
    have hlt : x < d := lt_of_lt_of_le (Finset.mem_range.mp hx) he
    rw [Nat.mul_comm, Nat.mul_add_div (by omega), Nat.div_eq_of_lt hlt, Nat.add_zero]

theorem sum_blocks (n r : Nat) : ∑ p ∈ Finset.range n, (groupSize n r (p / (r + 1)) - 1) =
    (n - n % (r + 1)) * r + n % (r + 1) * (n % (r + 1) - 1) := by
  have hn := Nat.div_add_mod' n (r + 1)
  have hlt := Nat.mod_lt n (show 0 < r + 1 by omega)
  have hsum := sum_div (n / (r + 1)) (fun i => groupSize n r i - 1) hlt.le
    (fun i hi => by rw [groupSize_full hi, Nat.add_sub_cancel])
  rw [hn] at hsum
  rw [hsum, groupSize_last, show n - n % (r + 1) = n / (r + 1) * (r + 1) by omega]

/-- Data in full groups only. -/
theorem sum_data_full (h : k ≤ n / (r + 1) * r) :
    ∑ s ∈ Finset.range k, (groupSize n r (s / r) - 1) = k * r := by
  rw [Finset.sum_const_nat (m := r), Finset.card_range]
  intro s hs
  have hlt : s < r * (n / (r + 1)) := by
    rw [Nat.mul_comm]
    exact lt_of_lt_of_le (Finset.mem_range.mp hs) h
  rw [groupSize_full (Nat.div_lt_of_lt_mul hlt), Nat.add_sub_cancel]

/-- Data in the last group too, which is then not full. -/
theorem sum_data_last (hv : Valid n k r) (h : n / (r + 1) * r < k) :
    n % (r + 1) ≠ 0 ∧ k % r = k - n / (r + 1) * r ∧
      ∑ s ∈ Finset.range k, (groupSize n r (s / r) - 1) =
        (k - k % r) * r + k % r * (n % (r + 1) - 1) := by
  have hfits := hv.fits
  have hn := Nat.div_add_mod' n (r + 1)
  have hlt := Nat.mod_lt n (show 0 < r + 1 by omega)
  rw [localGroupNumber_eq] at hfits
  rw [Nat.mul_add, Nat.mul_one] at hn
  have hlast : n % (r + 1) ≠ 0 := by
    intro hzero
    rw [if_pos hzero] at hfits
    omega
  rw [if_neg hlast] at hfits
  have hmod : k % r = k - n / (r + 1) * r := by
    have hk : k = k - n / (r + 1) * r + r * (n / (r + 1)) := by
      rw [Nat.mul_comm r]
      omega
    conv_lhs => rw [hk]
    rw [Nat.add_mul_mod_self_left]
    exact Nat.mod_eq_of_lt (by omega)
  have hsum := sum_div (n / (r + 1)) (fun i => groupSize n r i - 1)
    (show k - n / (r + 1) * r ≤ r by omega) (fun i hi => by rw [groupSize_full hi, Nat.add_sub_cancel])
  rw [Nat.add_sub_cancel' h.le] at hsum
  refine ⟨hlast, hmod, ?_⟩
  rw [hsum, groupSize_last, hmod, Nat.sub_sub_self h.le]

end Sizes

section Costs

/-- The blocks of the simulators are those of the stripe. -/
theorem nodeStable_perm (hv : Valid n k r) :
    (nodeStable n k r).Perm ((List.range n).map (fun p => name (origin n k r p))) := by
  apply (List.subperm_of_subset (nodup_nodeStable n k r) ?_).perm_of_length_le
  · rw [List.length_map, List.length_range, length_nodeStable hv]
  · intro node hnode
    rw [nodeStable_eq] at hnode
    obtain ⟨o, ho, rfl⟩ := List.mem_map.mp hnode
    have hsrc := sources_eq hv
    have hsource : ∀ s < k + globalNumber n k r, name (if s < k then .data s else .global (s - k)) ∈
        (List.range n).map (fun p => name (origin n k r p)) := by
      intro s hs
      rw [← hsrc] at hs
      rw [← origin_position (k := k) hv.r_pos hs]
      exact List.mem_map_of_mem (List.mem_range.mpr (source_lt hv.r_pos s hs))
    have hmem := (mem_origins o).mp ho
    cases o with
    | data i =>
      have hi : i < k := hmem
      simpa only [hi, if_true] using hsource i (by omega)
    | global j =>
      have hj : j < globalNumber n k r := hmem
      simpa using hsource (k + j) (by omega)
    | localParity i =>
      rw [← origin_parity (k := k) hv.r_pos hmem]
      exact List.mem_map_of_mem (List.mem_range.mpr (group_lt hv.r_pos hmem le_rfl))

theorem filter_isData (n k r : Nat) :
    (nodeStable n k r).filter isData = (List.range k).map (nodeId 'D') := by
  simp [nodeStable, List.filter_append, List.filter_map, isData, nodeId, Function.comp_def]

variable {dict : Name → Nat}

theorem dict_data (hv : Valid n k r) (hdict : ∀ p < n, dict (name (origin n k r p)) = p / (r + 1))
    {s : Nat} (hs : s < k) : dict (nodeId 'D' s) = s / r := by
  have hsrc := data_lt hv hs
  have := hdict (position r s) (source_lt hv.r_pos s hsrc)
  rwa [origin_position hv.r_pos hsrc, if_pos hs, (position_spec hv.r_pos s hsrc).2.1] at this

theorem countP_dict (hv : Valid n k r) (hdict : ∀ p < n, dict (name (origin n k r p)) = p / (r + 1))
    (i : Nat) : (nodeStable n k r).countP (fun node => dict node = i) = groupSize n r i := by
  rw [(nodeStable_perm hv).countP_eq, List.countP_map, groupSize]
  apply List.countP_congr
  intro p hp
  simp [hdict p (List.mem_range.mp hp)]

/-- With one block per rack, a block costs the other blocks of its group. -/
theorem cost_flatRacks (hv : Valid n k r) (hdict : ∀ p < n, dict (name (origin n k r p)) = p / (r + 1))
    (node : Name) (hnode : node ∈ nodeStable n k r) :
    cost dict (flatRacks n k r) node = some (groupSize n r (dict node) - 1) := by
  have hflat : (flatRacks n k r).flatten = nodeStable n k r := by
    rw [flatRacks, ← List.flatMap_def, List.flatMap_singleton']
  have hcount : (flatRacks n k r).countP (holds dict (dict node)) = groupSize n r (dict node) := by
    rw [← countP_dict hv hdict, flatRacks, List.countP_map]
    apply List.countP_congr
    intro x hx
    simp [holds]
  rw [cost_eq dict _ node (hflat ▸ hnode), hcount]

end Costs

section Closed

theorem flat_nrc (n k r : Nat) : (flat n k r).2 =
    (∑ p ∈ Finset.range n, (groupSize n r (p / (r + 1)) - 1) : Nat) / k := by
  rw [sum_blocks]
  rcases Nat.eq_zero_or_pos (n % (r + 1)) with h | h
  · simp [flat, h]
  · simp [flat, Nat.cast_sub h]

/-- There are more groups than the data fill, or all are full, unless the last group has data
and is short. -/
theorem flat_drc (hv : Valid n k r) : (flat n k r).1 =
    (∑ s ∈ Finset.range k, (groupSize n r (s / r) - 1) : Nat) / k := by
  have hk : (k : Rat) ≠ 0 := by
    have := hv.k_pos
    exact_mod_cast (show k ≠ 0 by omega)
  have hceil : ceilDiv k r ≤ (n / (r + 1) : Nat) ↔ k ≤ n / (r + 1) * r := by
    have hr := hv.r_pos
    rw [ceilDiv_eq k r hr, Int.ofNat_le, Nat.div_le_iff_le_mul_add_pred hr, Nat.mul_comm]
    omega
  have hgroups := ceilDiv_groups n r
  rw [localGroupNumber_eq] at hgroups
  rcases Nat.lt_or_ge (n / (r + 1) * r) k with hlt | hge
  · obtain ⟨hlast, hmod, hsum⟩ := sum_data_last hv hlt
    have hno : ¬ ceilDiv n (r + 1) > ceilDiv k r := by
      rw [hgroups, if_neg hlast]
      have := mt hceil.mp (not_le.mpr hlt)
      omega
    have hle : k % r ≤ k := Nat.mod_le k r
    have hone : 1 ≤ n % (r + 1) := Nat.pos_of_ne_zero hlast
    rw [hsum]
    simp only [flat, if_neg hno, if_neg hlast]
    push_cast [Nat.cast_sub hle, Nat.cast_sub hone]
    rfl
  · have hfull : (flat n k r).1 = r := by
      by_cases hlast : n % (r + 1) = 0
      · simp [flat, hlast]
      · have hmore : ceilDiv n (r + 1) > ceilDiv k r := by
          rw [hgroups, if_neg hlast]
          exact Int.lt_add_one_of_le (hceil.mpr hge)
        simp [flat, hmore]
    rw [hfull, sum_data_full hge]
    push_cast
    field_simp

theorem sum_map_range {f g : Nat → Nat} (m : Nat) (h : ∀ i < m, f i = g i) :
    ((List.range m).map f).sum = ∑ i ∈ Finset.range m, g i :=
  Finset.sum_congr rfl (fun i hi => h i (Finset.mem_range.mp hi))

theorem one_le_groupSize {p : Nat} (hp : p < n) : 1 ≤ groupSize n r (p / (r + 1)) :=
  List.countP_pos_iff.mpr ⟨p, List.mem_range.mpr hp, by simp⟩

/-- `flat` is the cost of the placement with one block per rack: a block costs the rest of its
local group. -/
theorem flat_closed (hv : Valid n k r) (dict : Name → Nat)
    (hdict : ∀ p < n, dict (name (origin n k r p)) = p / (r + 1)) :
    repairCost (cost dict (flatRacks n k r)) isData (nodeStable n k r) k = some (flat n k r).1 ∧
    repairCost (cost dict (flatRacks n k r)) (fun _ => true) (nodeStable n k r) k = some (flat n k r).2 ∧
    (flat n k r).1 =
      (∑ s ∈ Finset.range k, ((groupSize n r (position r s / (r + 1)) : Rat) - 1)) / k ∧
    (flat n k r).2 = (∑ p ∈ Finset.range n, ((groupSize n r (p / (r + 1)) : Rat) - 1)) / k := by
  have hcost := cost_flatRacks hv hdict
  refine ⟨?_, ?_, ?_, ?_⟩
  · rw [repairCost_eq isData _ k hcost, filter_isData, List.map_map, flat_drc hv]
    congr 3
    apply sum_map_range
    intro s hs
    rw [Function.comp_apply, dict_data hv hdict hs]
  · rw [repairCost_eq _ _ k hcost, List.filter_true, flat_nrc, ((nodeStable_perm hv).map _).sum_eq, List.map_map]
    congr 3
    apply sum_map_range
    intro p hp
    rw [Function.comp_apply, hdict p hp]
  · rw [flat_drc hv, Nat.cast_sum]
    congr 1
    apply Finset.sum_congr rfl
    intro s hs
    have hs' := data_lt hv (Finset.mem_range.mp hs)
    have hone := one_le_groupSize (r := r) (source_lt hv.r_pos s hs')
    rw [(position_spec hv.r_pos s hs').2.1] at hone ⊢
    push_cast [Nat.cast_sub hone]
    rfl
  · rw [flat_nrc, Nat.cast_sum]
    congr 1
    apply Finset.sum_congr rfl
    intro p hp
    push_cast [Nat.cast_sub (one_le_groupSize (Finset.mem_range.mp hp))]
    rfl

theorem flat_closed_five : flat 5 3 2 = (5 / 3, 8 / 3) ∧
    (flat 5 3 2).1 = (∑ s ∈ Finset.range 3, ((groupSize 5 2 (position 2 s / 3) : Rat) - 1)) / 3 :=
  ⟨by norm_num [flat, ceilDiv], (flat_closed ⟨by decide, by decide, by decide⟩
    (fun node => (List.range 5).findIdx (fun p => name (origin 5 3 2 p) = node) / 3)
    (by decide +kernel)).2.2.1⟩

end Closed

end OptLrc.Flat
