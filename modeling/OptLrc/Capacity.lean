import OptLrc.RandomRacks

namespace OptLrc.Capacity

open OptLrc.Memory OptLrc.Encoder OptLrc.Stripe OptLrc.Distance OptLrc.Layout OptLrc.Placement
open OptLrc.Simulator OptLrc.Groups OptLrc.RandomRacks

/-- The capacity `b` in the comment of `our_placement`. -/
def oldCapacity (n k r : Nat) : Int :=
  if n % (r + 1) = 0 then n - k - ceilDiv k r + 1 else n - k - ceilDiv k r

section Residues

variable {n k r : Nat}

theorem ceilDiv_mul (a b : Int) : ceilDiv a b * b = a + -a % b := by
  have := Int.mul_ediv_add_emod (-a) b
  rw [ceilDiv, neg_mul, Int.mul_comm]
  omega

/-- The last group of a code takes the blocks that `r + 1` leaves over. -/
theorem localGroupNumber_eq (n r : Nat) :
    localGroupNumber n r = n / (r + 1) + if n % (r + 1) = 0 then 0 else 1 := by
  have hlt := Nat.mod_lt n (show 0 < r + 1 by omega)
  have hdiv : localGroupNumber n r = n / (r + 1) + (n % (r + 1) + r) / (r + 1) := by
    rw [localGroupNumber, ← Nat.mul_add_div (by omega), ← Nat.add_assoc, Nat.div_add_mod]
  rw [hdiv, Nat.add_right_inj]
  split
  · exact Nat.div_eq_of_lt (by omega)
  · rw [Nat.div_eq_iff (by omega)]
    omega

theorem localGroupNumber_mul (n r : Nat) : localGroupNumber n r * (r + 1) =
    if n % (r + 1) = 0 then n else n + (r + 1 - n % (r + 1)) := by
  have hn := Nat.div_add_mod' n (r + 1)
  have hlt := Nat.mod_lt n (show 0 < r + 1 by omega)
  rw [localGroupNumber_eq, Nat.add_mul]
  split <;> omega

/-- The groups that hold no data: one for each `r` global parities, and one more when neither
the data nor the blocks fill their last group. -/
theorem globalNumber_div (hv : Valid n k r) : (globalNumber n k r / r : Nat) =
    (localGroupNumber n r : Int) - ceilDiv k r -
      if n % (r + 1) = 0 ∨ (r : Int) < (n % (r + 1) : Nat) + -(k : Int) % r then 0 else 1 := by
  have hr : (0 : Int) < r := by exact_mod_cast hv.r_pos
  have hsum : (n : Int) = k + localGroupNumber n r + globalNumber n k r := by
    exact_mod_cast blocks_eq hv
  have hk := ceilDiv_mul k r
  have ht := Int.emod_nonneg (-(k : Int)) hr.ne'
  have htr := Int.emod_lt_of_pos (-(k : Int)) hr
  have hlt := Nat.mod_lt n (show 0 < r + 1 by omega)
  have hL : (localGroupNumber n r : Int) * (r + 1) =
      if n % (r + 1) = 0 then (n : Int) else n + (r + 1 - (n % (r + 1) : Nat)) := by
    have := localGroupNumber_mul n r
    split at this <;> zify [hlt.le] at this <;> simp_all
  rw [Int.natCast_ediv, Int.ediv_eq_iff_of_pos hr]
  have hpos : n % (r + 1) ≠ 0 → (1 : Int) ≤ (n % (r + 1) : Nat) := by omega
  generalize n % (r + 1) = s at *
  generalize -(k : Int) % r = t at *
  split at hL
  · rw [if_pos (by omega)]
    constructor <;> nlinarith
  · next h =>
    have hone := hpos h
    by_cases hst : (r : Int) < s + t
    · rw [if_pos (by omega)]
      constructor <;> nlinarith
    · rw [if_neg (by omega)]
      constructor <;> nlinarith

end Residues

section Racks

variable {n k r : Nat}

theorem rangeStep_eq (stop : Nat) {step : Nat} (h : 1 ≤ step) :
    rangeStep stop step = .ok ((List.range ((stop + step - 1) / step)).map (· * step)) := by
  rw [rangeStep, if_neg (by omega), Int.toNat_natCast]

theorem foldlM_slices (b : Nat) (hb : 1 ≤ b) (groups rank : List (List Name)) :
    groups.foldlM (fun rank group => do
      let starts ← rangeStep group.length (b : Int)
      return rank ++ starts.map (fun eg => (group.drop eg).take (b : Int).toNat)) rank =
      (.ok (rank ++ groups.flatMap (slices b)) : Except Raise _) := by
  induction groups generalizing rank with
  | nil => simp
  | cons group groups ih =>
    rw [List.foldlM_cons, rangeStep_eq _ hb, ok_bind, pure_eq_ok, ok_bind, ih, List.map_map,
      List.flatMap_cons, List.append_assoc, Int.toNat_natCast]
    rfl

/-- With a positive capacity the racks are those of the placement. -/
theorem ourRank_eq (groups : List (List Name)) (r : Nat) {b : Nat} (hb : 1 ≤ b) :
    ourRank groups r b = .ok (ourPlacement groups r b) := by
  have hdiv : (b : Int) / (r + 1) = (b / (r + 1) : Nat) := by push_cast; rfl
  by_cases h : r + 1 ≤ b
  · have hstep : 1 ≤ b / (r + 1) := (Nat.le_div_iff_mul_le (by omega)).mpr (by omega)
    have hle : (r : Int) + 1 ≤ b := by omega
    have hlt : ¬ (b : Int) < r + 1 := by omega
    have hne : ¬ ((b / (r + 1) : Nat) : Int) = 0 := by omega
    simp only [ourRank, ourPlacement, hle, hlt, h, if_true, if_false, hdiv, numCluster, hne, ok_bind,
      rangeStep_eq _ hstep, pure_eq_ok, Int.toNat_natCast, slices, List.map_map]
    rw [if_neg (by omega), List.append_nil]
    rfl
  · have hle : ¬ (r : Int) + 1 ≤ b := by omega
    have hlt : (b : Int) < r + 1 := by omega
    simp only [ourRank, ourPlacement, hle, hlt, h, if_true, if_false, pure_eq_ok, ok_bind]
    rw [if_pos (by omega)]
    exact foldlM_slices b hb groups []

theorem rankGroup_ok (dict : Dict) (m : Nat) (nodes : List Name)
    (h : ∀ node ∈ nodes, ∃ id < m, dict node = some id) :
    ∃ groups, rankGroup dict m nodes = .ok groups := by
  have hrun : ∀ (rest : List Name) (groups : List (List Name)), (∀ node ∈ rest, ∃ id < m, dict node = some id) →
      groups.length = m → ∃ groups', rest.foldlM (appendNode dict) groups = .ok groups' := by
    intro rest
    induction rest with
    | nil => exact fun groups _ _ => ⟨groups, rfl⟩
    | cons node rest ih =>
      intro groups hrest hlen
      obtain ⟨id, hid, hdict⟩ := hrest node (by simp)
      have happend : appendNode dict groups node = .ok (groups.set id (groups[id] ++ [node])) := by
        simp [appendNode, lookup, hdict, hlen, hid]
      obtain ⟨groups', hfold⟩ := ih (groups.set id (groups[id] ++ [node])) (fun x hx => hrest x (by simp [hx]))
        (by simpa using hlen)
      exact ⟨groups', by rw [List.foldlM_cons, happend, ok_bind, hfold]⟩
  exact hrun nodes _ h (by simp)

theorem groupOf_lt (hv : Valid n k r) (bound : Nat) {o : Origin} (ho : o ∈ origins n k r) :
    groupOf (leading bound) k r o < localGroupNumber n r := by
  have hsrc := sources_eq hv
  have hgroup : ∀ s t, s ≤ t → t < k + globalNumber n k r → s / r < localGroupNumber n r := by
    intro s t hst ht
    exact lt_of_le_of_lt (Nat.div_le_div_right hst) (lt_groupCount hv.r_pos t (by omega)).1
  have hmem := (mem_origins o).mp ho
  cases o with
  | data i => exact hgroup _ i (leading_le bound i) (Nat.lt_add_right _ hmem)
  | global j =>
    have := leading_le 10 j
    have hj : j < globalNumber n k r := hmem
    exact hgroup _ (k + j) (by omega) (by omega)
  | localParity i => exact lt_of_le_of_lt (leading_le 10 i) hmem

/-- `our_placement` raises nothing. -/
theorem ourRacks_ok (hv : Valid n k r) :
    ∃ groups, ourRacks n k r = .ok (ourPlacement groups r (capacity n k r)) := by
  obtain ⟨dict, hdict, hval⟩ := exists_dict (k := k) hv.r_pos (ourDataIndex_nodeId 'D') n
  obtain ⟨groups, hgroups⟩ := rankGroup_ok dict (localGroupNumber n r) (nodeStable n k r) (by
    intro node hnode
    rw [nodeStable_eq] at hnode
    obtain ⟨o, ho, rfl⟩ := List.mem_map.mp hnode
    exact ⟨_, groupOf_lt hv 100 ho, hval o ho⟩)
  refine ⟨groups, ?_⟩
  rw [ourRacks, ourDict, hdict, ok_bind, ceilDiv_groups, Int.toNat_natCast, hgroups, ok_bind,
    cal_eq_capacity hv]
  exact ourRank_eq groups r (Nat.le_add_left 1 _)

/-- `cal` in closed form. The capacity is positive and so are the steps, the divisor and the
ranges that come of it; it exceeds the old one where the new one counts a group more. -/
theorem cal_closed (hv : Valid n k r) :
    (cal n k r = if n % (r + 1) = 0 ∨ (r : Int) < (n % (r + 1) : Nat) + (-(k : Int)) % r
      then n - k - ceilDiv k r + 2 else n - k - ceilDiv k r + 1) ∧
    2 ≤ cal n k r ∧ 1 ≤ cal n k r - 1 ∧
    (r + 1 ≤ cal n k r - 1 → 1 ≤ (cal n k r - 1) / (r + 1)) ∧
    (∃ racks, ourRacks n k r = .ok racks) ∧
    (∀ draws, ∃ st, randomRacks draws n k r = .ok st) ∧
    oldCapacity n k r ≤ cal n k r - 1 ∧
    (oldCapacity n k r < cal n k r - 1 ↔
      0 < n % (r + 1) ∧ (r : Int) < (n % (r + 1) : Nat) + (-(k : Int)) % r) := by
  have hdiv := globalNumber_div hv
  have hsum : (n : Int) = k + localGroupNumber n r + globalNumber n k r := by
    exact_mod_cast blocks_eq hv
  have hcal : cal n k r = globalNumber n k r + (globalNumber n k r / r : Nat) + 2 := by
    rw [cal_eq hv]
    push_cast
    rfl
  have hpos : 2 ≤ cal n k r := by
    rw [cal_eq hv]
    exact_mod_cast Nat.le_add_left 2 _
  have hclosed : cal n k r = if n % (r + 1) = 0 ∨ (r : Int) < (n % (r + 1) : Nat) + (-(k : Int)) % r
      then n - k - ceilDiv k r + 2 else n - k - ceilDiv k r + 1 := by
    rw [hcal, hdiv]
    split <;> omega
  refine ⟨hclosed, hpos, by omega, fun h => ?_, ?_, fun draws => ?_, ?_⟩
  · exact (Int.le_ediv_iff_mul_le (by omega)).mpr (by omega)
  · obtain ⟨groups, h⟩ := ourRacks_ok hv
    exact ⟨_, h⟩
  · obtain ⟨m, st, h, -⟩ := exists_ended hv draws
    exact ⟨st, h⟩
  · rw [hclosed, oldCapacity]
    by_cases hs : n % (r + 1) = 0
    · rw [if_pos hs, if_pos (Or.inl hs)]
      omega
    · by_cases hst : (r : Int) < (n % (r + 1) : Nat) + (-(k : Int)) % r
      · rw [if_neg hs, if_pos (Or.inr hst)]
        omega
      · rw [if_neg hs, if_neg (by omega)]
        omega

theorem cal_closed_eight : cal 8 3 2 = 5 ∧ oldCapacity 8 3 2 < cal 8 3 2 - 1 ∧
    ∃ racks, ourRacks 8 3 2 = .ok racks :=
  have h := cal_closed (show Valid 8 3 2 from ⟨by decide, by decide, by decide⟩)
  ⟨h.1.trans (by decide), h.2.2.2.2.2.2.2.mpr (by decide), h.2.2.2.2.1⟩

end Racks

end OptLrc.Capacity
