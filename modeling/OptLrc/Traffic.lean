import OptLrc.Segments
import OptLrc.Placement
import OptLrc.Repair
import OptLrc.Stripe

namespace OptLrc.Traffic

open OptLrc.Memory OptLrc.Encoder OptLrc.Stripe OptLrc.Storage OptLrc.Repair OptLrc.Segments OptLrc.Placement

/-- The racks of the blocks, as the client has loaded them. -/
def Racked (n : Nat) (nodeRack : Cells Nat) (rack : Nat → Nat) : Prop :=
  ∀ i < n, nodeRack[i]? = some (some (rack i))

/-- The blocks of local group `j` lie on more than one rack. -/
def Spans (n r : Nat) (rack : Nat → Nat) (j : Nat) : Prop :=
  ∃ a < n, ∃ b < n, a / (r + 1) = j ∧ b / (r + 1) = j ∧ rack a ≠ rack b

instance (n r : Nat) (rack : Nat → Nat) (j : Nat) : Decidable (Spans n r rack j) :=
  inferInstanceAs (Decidable (∃ a < n, ∃ b < n, _))

section Transfers

variable {n r : Nat} {nodeRack : Cells Nat} {rack : Nat → Nat}

/-- Block `i` lies on another rack than the first block of its group. -/
def Apart (r : Nat) (rack : Nat → Nat) (i : Nat) : Prop := rack (i / (r + 1) * (r + 1)) ≠ rack i

instance (r : Nat) (rack : Nat → Nat) (i : Nat) : Decidable (Apart r rack i) :=
  inferInstanceAs (Decidable (_ ≠ _))

/-- The blocks that the transfer loop has sent when it has seen the first `m` positions. -/
def sentBefore (n r : Nat) (rack : Nat → Nat) (m : Nat) : List Nat :=
  (List.range m).filter (fun i => ¬ IsParity n r i ∨ ∃ i' < i + 1, Apart r rack i')

/-- What the variables of the transfer loop hold after `m` turns. -/
structure TransferState (n r : Nat) (rack : Nat → Nat) (m : Nat) (st : Nat × Bool × List Nat) : Prop where
  first : m % (r + 1) ≠ 0 → st.1 = rack (m / (r + 1) * (r + 1))
  cross : st.2.1 = decide (∃ i < m, Apart r rack i)
  sent : st.2.2 = sentBefore n r rack m

theorem isParity_iff (n r i : Nat) : IsParity n r i ↔ ¬ ((i + 1) % (r + 1) ≠ 0 ∧ i + 1 ≠ n) := by
  have hmod : i % (r + 1) = r ↔ (i + 1) % (r + 1) = 0 := by
    have hd := Nat.div_add_mod i (r + 1)
    have hm := Nat.mod_lt i (show 0 < r + 1 by omega)
    constructor
    · intro h
      have hi : i + 1 = (r + 1) * (i / (r + 1) + 1) := by
        rw [Nat.mul_add]
        omega
      rw [hi, Nat.mul_mod_right]
    · intro h
      by_contra hne
      have hi : i + 1 = (r + 1) * (i / (r + 1)) + (i % (r + 1) + 1) := by omega
      rw [hi, Nat.mul_add_mod, Nat.mod_eq_of_lt (by omega)] at h
      omega
  unfold IsParity
  rw [hmod]
  tauto

theorem exists_lt_succ {P : Nat → Prop} (m : Nat) : (∃ i < m + 1, P i) ↔ (∃ i < m, P i) ∨ P m := by
  constructor
  · rintro ⟨i, hi, hP⟩
    rcases Nat.lt_succ_iff_lt_or_eq.mp hi with h | rfl
    · exact Or.inl ⟨i, h, hP⟩
    · exact Or.inr hP
  · rintro (⟨i, hi, hP⟩ | hP)
    · exact ⟨i, by omega, hP⟩
    · exact ⟨m, by omega, hP⟩

theorem transferStep_state (hrack : Racked n nodeRack rack) {m : Nat} (hm : m < n)
    {st : Nat × Bool × List Nat} (hst : TransferState n r rack m st) :
    ∃ st', transferStep n r nodeRack st m = .ok st' ∧ TransferState n r rack (m + 1) st' := by
  have hfirst : (if m % (r + 1) = 0 then rack m else st.1) = rack (m / (r + 1) * (r + 1)) := by
    split
    · next h => rw [Nat.div_mul_cancel (Nat.dvd_of_mod_eq_zero h)]
    · next h => exact hst.first h
  have hcross : (st.2.1 || decide (rack (m / (r + 1) * (r + 1)) ≠ rack m)) =
      decide (∃ i < m + 1, Apart r rack i) := by
    rw [hst.cross, ← Bool.decide_or, decide_eq_decide, exists_lt_succ]
    rfl
  have hnext : (m + 1) % (r + 1) ≠ 0 → rack (m / (r + 1) * (r + 1)) =
      rack ((m + 1) / (r + 1) * (r + 1)) := by
    intro h
    rw [Nat.succ_div_of_not_dvd (fun hd => h (Nat.mod_eq_zero_of_dvd hd))]
  have hsent : sentBefore n r rack (m + 1) = sentBefore n r rack m ++
      if ¬ IsParity n r m ∨ ∃ i' < m + 1, Apart r rack i' then [m] else [] := by
    rw [sentBefore, List.range_succ, List.filter_append]
    congr 1
    by_cases h : ¬ IsParity n r m ∨ ∃ i' < m + 1, Apart r rack i'
    · rw [if_pos h]
      exact List.filter_cons_of_pos (decide_eq_true h)
    · rw [if_neg h]
      exact List.filter_cons_of_neg (by simpa using h)
  unfold transferStep
  simp only [Cells.read_eq (hrack m hm), ok_bind, hfirst, hcross]
  by_cases hp : (m + 1) % (r + 1) ≠ 0 ∧ m + 1 ≠ n
  · refine ⟨_, by rw [if_pos hp]; rfl, hnext, rfl, ?_⟩
    rw [hsent, hst.sent, if_pos (Or.inl (by rw [isParity_iff]; exact not_not_intro hp))]
  · have hpar : IsParity n r m := (isParity_iff n r m).mpr hp
    rw [if_neg hp]
    by_cases hc : ∃ i < m + 1, Apart r rack i
    · refine ⟨_, by rw [if_pos (decide_eq_true hc)]; rfl, hnext, rfl, ?_⟩
      rw [hsent, hst.sent, if_pos (Or.inr hc)]
    · refine ⟨_, by rw [if_neg (by simpa using hc)]; rfl, hnext, rfl, ?_⟩
      rw [hsent, hst.sent, if_neg (not_or.mpr ⟨not_not_intro hpar, hc⟩), List.append_nil]

/-- What encoding scheme 1 sends through the core. -/
theorem transferList_eq (hn : 1 ≤ n) (hrack : Racked n nodeRack rack) :
    transferList n r 1 nodeRack = .ok (sentBefore n r rack n) := by
  have hrun : ∀ m ≤ n, ∃ st, (List.range m).foldlM (transferStep n r nodeRack) (rack 0, false, []) =
      .ok st ∧ TransferState n r rack m st := by
    intro m hm
    induction m with
    | zero =>
      refine ⟨_, rfl, ?_, ?_, rfl⟩
      · intro h
        simp at h
      · simp
    | succ m ih =>
      obtain ⟨st, he, hst⟩ := ih (by omega)
      obtain ⟨st', he', hst'⟩ := transferStep_state hrack (by omega) hst
      refine ⟨st', ?_, hst'⟩
      rw [List.range_succ, List.foldlM_append, he, ok_bind, List.foldlM_cons, he', ok_bind]
      rfl
  obtain ⟨st, he, hst⟩ := hrun n le_rfl
  unfold transferList
  rw [Cells.read_eq (hrack 0 (by omega)), ok_bind, if_pos rfl, he, ok_bind, hst.sent]
  rfl

theorem spans_iff_apart (j : Nat) :
    Spans n r rack j ↔ ∃ i < n, i / (r + 1) = j ∧ Apart r rack i := by
  constructor
  · rintro ⟨a, ha, b, hb, hja, hjb, hne⟩
    by_contra h
    push Not at h
    have h1 := h a ha hja
    have h2 := h b hb hjb
    simp only [Apart, ne_eq, not_not, hja, hjb] at h1 h2
    exact hne (h1.symm.trans h2)
  · rintro ⟨i, hi, hj, hap⟩
    have hle : i / (r + 1) * (r + 1) ≤ i := Nat.div_mul_le_self i (r + 1)
    exact ⟨i / (r + 1) * (r + 1), by omega, i, hi, by rw [Nat.mul_div_cancel _ (by omega), hj], hj, hap⟩

theorem count_sentBefore (m i : Nat) : (sentBefore n r rack m).count i =
    if i < m ∧ (¬ IsParity n r i ∨ ∃ i' < i + 1, Apart r rack i') then 1 else 0 := by
  have hmem : i ∈ sentBefore n r rack m ↔
      i < m ∧ (¬ IsParity n r i ∨ ∃ i' < i + 1, Apart r rack i') := by
    rw [sentBefore, List.mem_filter, List.mem_range, decide_eq_true_eq]
  have hnodup : (sentBefore n r rack m).Nodup := List.nodup_range.filter _
  rw [hnodup.count]
  simp only [hmem]

/-- The last position of local group `j`. -/
def groupEnd (n r j : Nat) : Nat := min (j * (r + 1) + r) (n - 1)

theorem groupEnd_spec {j : Nat} (hj : j < localGroupNumber n r) :
    groupEnd n r j < n ∧ groupEnd n r j / (r + 1) = j ∧ IsParity n r (groupEnd n r j) := by
  have hlt := (lt_localGroupNumber_iff j).mp hj
  obtain ⟨ii, hii, he⟩ : ∃ ii ≤ r, groupEnd n r j = j * (r + 1) + ii :=
    ⟨groupEnd n r j - j * (r + 1), by unfold groupEnd; omega, by unfold groupEnd; omega⟩
  refine ⟨by unfold groupEnd; omega, by rw [he, group_div hii], ?_⟩
  by_cases hfull : j * (r + 1) + r ≤ n - 1
  · left
    rw [groupEnd, Nat.min_eq_left hfull, group_mod le_rfl]
  · right
    unfold groupEnd
    omega

/-- The flag is up at the end of a group when this group or one before it spans racks. -/
theorem apart_before_iff {j : Nat} (hj : j < localGroupNumber n r) :
    (∃ i < groupEnd n r j + 1, Apart r rack i) ↔ ∃ j' ≤ j, Spans n r rack j' := by
  obtain ⟨hend, hdiv, -⟩ := groupEnd_spec hj
  constructor
  · rintro ⟨i, hi, hap⟩
    refine ⟨i / (r + 1), ?_, (spans_iff_apart _).mpr ⟨i, by omega, rfl, hap⟩⟩
    rw [← hdiv]
    exact Nat.div_le_div_right (by omega)
  · rintro ⟨j', hj', hs⟩
    obtain ⟨i, hi, hij, hap⟩ := (spans_iff_apart j').mp hs
    refine ⟨i, ?_, hap⟩
    have hlt : i < (j + 1) * (r + 1) := by
      rw [← Nat.div_lt_iff_lt_mul (by omega)]
      omega
    have : (j + 1) * (r + 1) = j * (r + 1) + r + 1 := by ring
    unfold groupEnd
    omega

/-- Under encoding scheme 1 each block that is no local parity goes through the core once, and
the parity of a group goes through it once if the group spans racks and not at all otherwise. -/
def TransfersRight (n r : Nat) (rack : Nat → Nat) (nodeRack : Cells Nat) : Prop :=
  ∃ sent, transferList n r 1 nodeRack = .ok sent ∧ (∀ i ∈ sent, i < n) ∧
    (∀ i < n, ¬ IsParity n r i → sent.count i = 1) ∧
    ∀ j < localGroupNumber n r, sent.count (groupEnd n r j) = if Spans n r rack j then 1 else 0

end Transfers

section Repairs

variable {n r p : Nat} {nodeRack : Cells Nat} {rack : Nat → Nat}

def groupStart (r p : Nat) : Nat := p / (r + 1) * (r + 1)

def groupNumber (n r p : Nat) : Nat :=
  if n < (r + 1) * (p / (r + 1) + 1) then n - groupStart r p else r + 1

/-- `cross_rack_num`, the number of times that the repair of block `p` goes through the core. -/
def repairTransfers (n r p : Nat) (nodeRack : Cells Nat) : Except Fault Nat :=
  crossRackNum nodeRack (groupStart r p) (groupNumber n r p)

/-- The racks of the simulator, each with its blocks. -/
def rank (n racks : Nat) (rack : Nat → Nat) : List (List Nat) :=
  (List.range racks).map (fun j => (List.range n).filter (fun q => rack q = j))

/-- The racks of the local group of block `p`, in the order of the positions. -/
def groupRacks (n r p : Nat) (rack : Nat → Nat) : List Nat :=
  (List.range (groupNumber n r p)).map (fun i => rack (i + groupStart r p))

/-- The racks other than that of block `p` that hold a block of its group. -/
def otherRacks (n r p : Nat) (rack : Nat → Nat) : Finset Nat :=
  (groupRacks n r p rack).toFinset.erase (rack p)

theorem mem_group_iff (q : Nat) : q < n ∧ q / (r + 1) = p / (r + 1) ↔
    groupStart r p ≤ q ∧ q < groupStart r p + groupNumber n r p := by
  have hd : q / (r + 1) = p / (r + 1) ↔
      p / (r + 1) * (r + 1) ≤ q ∧ q < p / (r + 1) * (r + 1) + (r + 1) := by
    rw [Nat.div_eq_iff (by omega)]
    omega
  have e : (r + 1) * (p / (r + 1) + 1) = p / (r + 1) * (r + 1) + (r + 1) := by ring
  rw [hd, groupNumber, groupStart, e]
  split <;> omega

theorem mem_groupRacks_iff (j : Nat) : j ∈ groupRacks n r p rack ↔
    ∃ q < n, q / (r + 1) = p / (r + 1) ∧ rack q = j := by
  rw [groupRacks, List.mem_map]
  constructor
  · rintro ⟨i, hi, hj⟩
    have hmem := (mem_group_iff (n := n) (r := r) (p := p) (i + groupStart r p)).mpr
      ⟨by omega, by have := List.mem_range.mp hi; omega⟩
    exact ⟨_, hmem.1, hmem.2, hj⟩
  · rintro ⟨q, hq, hg, hj⟩
    obtain ⟨h1, h2⟩ := (mem_group_iff (n := n) (r := r) (p := p) q).mp ⟨hq, hg⟩
    refine ⟨q - groupStart r p, List.mem_range.mpr (by omega), ?_⟩
    rw [Nat.sub_add_cancel h1, hj]

theorem cost_rank {racks : Nat} (hracks : ∀ q < n, rack q < racks) (hp : p < n) :
    cost (· / (r + 1)) (rank n racks rack) p = some (otherRacks n r p rack).card := by
  have hmem : p ∈ (rank n racks rack).flatten := by
    rw [List.mem_flatten]
    refine ⟨_, List.mem_map.mpr ⟨rack p, List.mem_range.mpr (hracks p hp), rfl⟩, ?_⟩
    rw [List.mem_filter]
    exact ⟨List.mem_range.mpr hp, by simp⟩
  have hcount : (rank n racks rack).countP (holds (· / (r + 1)) (p / (r + 1))) =
      (groupRacks n r p rack).toFinset.card := by
    rw [rank, List.countP_map, List.countP_eq_length_filter, ← List.toFinset_card_of_nodup
      (List.nodup_range.filter _)]
    congr 1
    ext j
    rw [List.mem_toFinset, List.mem_filter, List.mem_toFinset, mem_groupRacks_iff, List.mem_range,
      Function.comp_apply, holds, List.any_eq_true]
    constructor
    · rintro ⟨-, q, hq, hg⟩
      rw [List.mem_filter, List.mem_range, decide_eq_true_eq] at hq
      exact ⟨q, hq.1, of_decide_eq_true hg, hq.2⟩
    · rintro ⟨q, hq, hg, rfl⟩
      refine ⟨hracks q hq, q, ?_, decide_eq_true hg⟩
      rw [List.mem_filter, List.mem_range, decide_eq_true_eq]
      exact ⟨hq, rfl⟩
  have hself : rack p ∈ (groupRacks n r p rack).toFinset :=
    List.mem_toFinset.mpr ((mem_groupRacks_iff _).mpr ⟨p, hp, rfl, rfl⟩)
  rw [cost_eq _ _ _ hmem, hcount, otherRacks, Finset.card_erase_of_mem hself]

/-- The loop counts the rack changes along the positions of the group. -/
theorem crossRackNum_eq {start m : Nat} (hm : 0 < m)
    (h : ∀ i < m, nodeRack[i + start]? = some (some (rack (i + start)))) :
    crossRackNum nodeRack start m =
      .ok (changes (rack start) ((List.range m).map (fun i => rack (i + start)))) := by
  have hrun : ∀ (l : List Nat) (st : Nat × Nat), (∀ i ∈ l, i < m) →
      ∃ last, l.foldlM (fun (st : Nat × Nat) i => do
        let rack ← nodeRack.read (i + start)
        return if st.1 ≠ rack then (rack, st.2 + 1) else st) st =
        Except.ok (last, st.2 + changes st.1 (l.map (fun i => rack (i + start)))) := by
    intro l
    induction l with
    | nil => exact fun st _ => ⟨st.1, rfl⟩
    | cons i l ih =>
      intro st hl
      obtain ⟨last, he⟩ := ih (if st.1 ≠ rack (i + start) then (rack (i + start), st.2 + 1) else st)
        (fun j hj => hl j (by simp [hj]))
      refine ⟨last, ?_⟩
      rw [List.foldlM_cons, Cells.read_eq (h i (hl i (by simp))), ok_bind, pure_eq_ok, ok_bind, he,
        List.map_cons, changes]
      by_cases hne : st.1 = rack (i + start)
      · rw [if_neg (not_not_intro hne), if_pos hne, Nat.zero_add, hne]
      · rw [if_pos hne, if_neg hne, Nat.add_assoc]
  obtain ⟨last, he⟩ := hrun (List.range m) (rack start, 0) (fun i hi => List.mem_range.mp hi)
  have hfirst := h 0 hm
  rw [Nat.zero_add] at hfirst
  rw [crossRackNum, Cells.read_eq hfirst, ok_bind, he, ok_bind, Nat.zero_add]
  rfl

theorem groupRacks_cons (hp : p < n) : ∃ l, groupRacks n r p rack = rack (groupStart r p) :: l := by
  obtain ⟨h1, h2⟩ := (mem_group_iff (n := n) (r := r) (p := p) p).mp ⟨hp, rfl⟩
  obtain ⟨m, hm⟩ : ∃ m, groupNumber n r p = m + 1 := ⟨groupNumber n r p - 1, by omega⟩
  rw [groupRacks, hm, List.range_succ_eq_map, List.map_cons, Nat.zero_add]
  exact ⟨_, rfl⟩

end Repairs

end OptLrc.Traffic
