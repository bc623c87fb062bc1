import OptLrc.Layout
import OptLrc.Simulator

namespace OptLrc.Groups

open OptLrc.Memory OptLrc.Encoder OptLrc.Stripe OptLrc.Distance OptLrc.Layout OptLrc.Simulator

/-- The number that the first digits of `i` write, without the digits that would take it to
`bound`. -/
def leading (bound i : Nat) : Nat :=
  if i < bound ∨ i = 0 then i else leading bound (i / 10)
termination_by i

section Digits

variable {bound i : Nat}

theorem leading_of_lt (h : i < bound) : leading bound i = i := by
  rw [leading, if_pos (Or.inl h)]

theorem leading_of_ge (hb : 0 < bound) (h : bound ≤ i) : leading bound i = leading bound (i / 10) := by
  rw [leading, if_neg (by omega)]

theorem leading_le (bound i : Nat) : leading bound i ≤ i := by
  fun_induction leading bound i with
  | case1 i h => exact le_rfl
  | case2 i h ih => exact ih.trans (Nat.div_le_self i 10)

theorem leading_lt (hb : 0 < bound) (i : Nat) : leading bound i < bound := by
  fun_induction leading bound i with
  | case1 i h => omega
  | case2 i h ih => exact ih

theorem one_le_leading (hb : 10 ≤ bound) (hi : 0 < i) : 1 ≤ leading bound i := by
  fun_induction leading bound i with
  | case1 i h => exact hi
  | case2 i h ih => exact ih (by omega)

theorem leading_ten_self : leading 10 10 = 1 := by
  rw [leading_of_ge (by decide) le_rfl]
  exact leading_of_lt (by decide)

theorem str_of_lt (h : i < 10) : str i = [i.digitChar] := Nat.toDigits_of_lt_base h

theorem str_of_ge (h : 10 ≤ i) : str i = str (i / 10) ++ [(i % 10).digitChar] :=
  Nat.toDigits_of_base_le (by decide) h

theorem str_first (i : Nat) : ∃ rest, str i = (leading 10 i).digitChar :: rest := by
  induction i using Nat.strongRecOn with
  | ind i ih =>
    rcases Nat.lt_or_ge i 10 with h | h
    · exact ⟨[], by rw [str_of_lt h, leading_of_lt h]⟩
    · obtain ⟨rest, hrest⟩ := ih (i / 10) (by omega)
      exact ⟨rest ++ [(i % 10).digitChar], by rw [str_of_ge h, hrest, leading_of_ge (by decide) h]; rfl⟩

theorem str_first_two (h : 10 ≤ i) :
    ∃ rest, str i = (leading 100 i / 10).digitChar :: (leading 100 i % 10).digitChar :: rest := by
  induction i using Nat.strongRecOn with
  | ind i ih =>
    rcases Nat.lt_or_ge i 100 with h' | h'
    · exact ⟨[], by rw [str_of_ge h, str_of_lt (by omega), leading_of_lt h']; rfl⟩
    · obtain ⟨rest, hrest⟩ := ih (i / 10) (by omega) (by omega)
      exact ⟨rest ++ [(i % 10).digitChar], by rw [str_of_ge h, hrest, leading_of_ge (by decide) h']; rfl⟩

theorem leading_ten (h : 10 ≤ i) : leading 10 i = leading 100 i / 10 := by
  induction i using Nat.strongRecOn with
  | ind i ih =>
    rcases Nat.lt_or_ge i 100 with h' | h'
    · rw [leading_of_ge (by decide) h, leading_of_lt (show i / 10 < 10 by omega), leading_of_lt h']
    · rw [leading_of_ge (by decide) h, leading_of_ge (by decide) h']
      exact ih (i / 10) (by omega) (by omega)

theorem int_digitChar {d : Nat} (h : d < 10) : int d.digitChar = .ok d := by
  interval_cases d <;> rfl

theorem str_injective : Function.Injective str := by
  intro i j h
  have := congrArg (fun digits => Nat.ofDigitChars 10 digits 0) h
  simpa only [str, Nat.ofDigitChars_toDigits (show 1 < 10 by decide) le_rfl] using this

@[simp] theorem charAt_kind (kind : Char) (i : Nat) : charAt (nodeId kind i) 0 = .ok kind := rfl

@[simp] theorem charAt_first (kind : Char) (i : Nat) :
    charAt (nodeId kind i) 1 = .ok (leading 10 i).digitChar := by
  obtain ⟨rest, h⟩ := str_first i
  simp [charAt, nodeId, h]

@[simp] theorem int_leading (i : Nat) : int (leading 10 i).digitChar = .ok (leading 10 i) :=
  int_digitChar (leading_lt (by decide) i)

theorem randomDataIndex_nodeId (kind : Char) (i : Nat) :
    randomDataIndex (nodeId kind i) = .ok (leading 10 i) := by
  simp [randomDataIndex]

theorem ourDataIndex_nodeId (kind : Char) (i : Nat) : ourDataIndex (nodeId kind i) = .ok (leading 100 i) := by
  rcases Nat.lt_or_ge i 10 with h | h
  · have hlen : ¬ 2 < (nodeId kind i).length := by simp [nodeId, str_of_lt h]
    rw [ourDataIndex, if_neg hlen, charAt_first, ok_bind, int_leading, leading_of_lt h,
      leading_of_lt (by omega)]
  · obtain ⟨rest, hstr⟩ := str_first_two h
    have hlen : 2 < (nodeId kind i).length := by simp [nodeId, hstr]
    have hsecond : charAt (nodeId kind i) 2 = .ok (leading 100 i % 10).digitChar := by
      simp [charAt, nodeId, hstr]
    rw [ourDataIndex, if_pos hlen, charAt_first, ok_bind, int_leading, ok_bind, hsecond, ok_bind,
      int_digitChar (Nat.mod_lt _ (by decide)), ok_bind, pure_eq_ok, leading_ten h, Nat.div_add_mod']

end Digits

/-- The name of a block of the stripe. -/
def name : Origin → Name
  | .data i => nodeId 'D' i
  | .global j => nodeId 'G' j
  | .localParity i => nodeId 'L' i

theorem name_injective : Function.Injective name := by
  intro o o' h
  cases o <;> cases o' <;> simp only [name, nodeId, List.cons.injEq] at h <;>
    first
    | exact absurd h.1 (by decide)
    | rw [str_injective h.2]

def origins (n k r : Nat) : List Origin :=
  (List.range k).map .data ++ (List.range (localGroupNumber n r)).map .localParity ++
    (List.range (globalNumber n k r)).map .global

theorem nodeStable_eq (n k r : Nat) : nodeStable n k r = (origins n k r).map name := by
  have hg : ((n : Int) - (localGroupNumber n r : Nat) - k).toNat = globalNumber n k r := by
    have := localGroupNumber_le n r
    unfold globalNumber
    omega
  simp only [nodeStable, ceilDiv_groups, hg, Int.toNat_natCast, origins, List.map_append, List.map_map]
  rfl

/-- The group that a simulator computes for a block. -/
def groupOf (index : Nat → Nat) (k r : Nat) : Origin → Nat
  | .data i => index i / r
  | .global j => (leading 10 j + k) / r
  | .localParity i => leading 10 i

section Dictionaries

variable {dataIndex : Name → Except Raise Nat} {index : Nat → Nat} {k r : Nat}
  (hr : 1 ≤ r) (hindex : ∀ i, dataIndex (nodeId 'D' i) = .ok (index i))
include hr hindex

theorem assignGroup_name (dict : Dict) (o : Origin) : assignGroup dataIndex k r dict (name o) =
    .ok (Function.update dict (name o) (some (groupOf index k r o))) := by
  have hdiv : ∀ a, floorDiv a r = .ok (a / r) := fun a => if_neg (by omega)
  cases o with
  | data i => simp [assignGroup, name, groupOf, hindex, hdiv]
  | global j => simp [assignGroup, name, groupOf, hdiv]
  | localParity i => simp [assignGroup, name, groupOf]

theorem foldlM_assignGroup (os : List Origin) (dict : Dict) :
    ∃ dict', (os.map name).foldlM (assignGroup dataIndex k r) dict = .ok dict' ∧
      ∀ o, o ∈ os ∨ dict (name o) = some (groupOf index k r o) →
        dict' (name o) = some (groupOf index k r o) := by
  induction os generalizing dict with
  | nil => exact ⟨dict, rfl, fun o h => h.resolve_left (by simp)⟩
  | cons o os ih =>
    obtain ⟨dict', hfold, hdict⟩ := ih (Function.update dict (name o) (some (groupOf index k r o)))
    refine ⟨dict', ?_, fun o' h => hdict o' ?_⟩
    · rw [List.map_cons, List.foldlM_cons, assignGroup_name hr hindex, ok_bind, hfold]
    · by_cases he : o' = o
      · exact .inr (by rw [he, Function.update_self])
      · rcases h with h | h
        · exact .inl ((List.mem_cons.mp h).resolve_left he)
        · exact .inr (by rw [Function.update_of_ne (fun hn => he (name_injective hn)), h])

theorem exists_dict (n : Nat) :
    ∃ dict, (nodeStable n k r).foldlM (assignGroup dataIndex k r) (fun _ => none) = .ok dict ∧
      ∀ o ∈ origins n k r, dict (name o) = some (groupOf index k r o) := by
  obtain ⟨dict, hfold, hdict⟩ := foldlM_assignGroup hr hindex (origins n k r) (fun _ => none)
  exact ⟨dict, by rw [nodeStable_eq, hfold], fun o ho => hdict o (.inl ho)⟩

end Dictionaries

/-- `dict` sends every block to the local group in which the encoder places it. -/
structure GroupsMatch (n k r : Nat) (dict : Dict) : Prop where
  data : ∀ i < k, dict (nodeId 'D' i) = some (i / r)
  global : ∀ j < globalNumber n k r, dict (nodeId 'G' j) = some ((k + j) / r)
  localParity : ∀ i < localGroupNumber n r, dict (nodeId 'L' i) = some i
  encoder : ∀ p < n, dict (name (origin n k r p)) = some (p / (r + 1))
  one : ∀ i < localGroupNumber n r,
    (List.range (localGroupNumber n r)).countP (fun l => dict (nodeId 'L' l) = some i) = 1
  size : ∀ i, (nodeStable n k r).countP (fun node => dict node = some i) ≤ r + 1

section Match

variable {n k r : Nat}

/-- The blocks `0, .., m - 1` that fall in group `i`, when each group takes `d`. -/
theorem countP_div_eq {d : Nat} (hd : 1 ≤ d) (m i : Nat) :
    (List.range m).countP (fun s => s / d = i) = min d (m - i * d) := by
  induction m with
  | zero => simp
  | succ m ih =>
    have hlow := Nat.div_mul_le_self m d
    have hhigh := Nat.lt_div_mul_add (a := m) hd
    rw [List.range_succ, List.countP_append, List.countP_singleton, ih]
    rcases Nat.lt_trichotomy (m / d) i with hlt | rfl | hgt
    · have := Nat.mul_le_mul_right d (Nat.succ_le_of_lt hlt)
      rw [Nat.succ_mul] at this
      simp only [hlt.ne, decide_false, Bool.false_eq_true, if_false]
      omega
    · simp only [decide_true, if_true]
      omega
    · have := Nat.mul_le_mul_right d (Nat.succ_le_of_lt hgt)
      rw [Nat.succ_mul] at this
      simp only [hgt.ne', decide_false, Bool.false_eq_true, if_false]
      omega

theorem countP_locals {dict : Dict} {m : Nat} (hlocal : ∀ i < m, dict (nodeId 'L' i) = some i) (i : Nat) :
    (List.range m).countP (fun l => dict (nodeId 'L' l) = some i) = (List.range m).count i := by
  apply List.countP_congr
  intro l hl
  simp [hlocal l (List.mem_range.mp hl)]

/-- A dictionary with the encoder's groups has the rest of what is asked of it. -/
theorem groupsMatch_of_values (hv : Valid n k r) {dict : Dict}
    (hdata : ∀ i < k, dict (nodeId 'D' i) = some (i / r))
    (hglobal : ∀ j < globalNumber n k r, dict (nodeId 'G' j) = some ((k + j) / r))
    (hlocal : ∀ i < localGroupNumber n r, dict (nodeId 'L' i) = some i) : GroupsMatch n k r dict where
  data := hdata
  global := hglobal
  localParity := hlocal
  encoder := by
    intro p hp
    rcases position_cases hv.r_pos p hp with ⟨s, hs, rfl⟩ | ⟨i, hi, rfl⟩
    · rw [origin_position hv.r_pos hs, (position_spec hv.r_pos s hs).2.1]
      split
      · next h => exact hdata s h
      · next h =>
        have hg : s - k < globalNumber n k r := by
          rw [sources_eq hv] at hs
          omega
        rw [name, hglobal _ hg, Nat.add_sub_cancel' (by omega)]
    · rw [origin_parity hv.r_pos hi, parityPosition, group_div (groupCount_le n r i)]
      exact hlocal i hi
  one := by
    intro i hi
    rw [countP_locals hlocal]
    exact List.count_eq_one_of_mem List.nodup_range (List.mem_range.mpr hi)
  size := by
    intro i
    have hsources : (List.range (k + globalNumber n k r)).countP (fun s => s / r = i) =
        ((List.range k).map (nodeId 'D')).countP (fun node => dict node = some i) +
          ((List.range (globalNumber n k r)).map (nodeId 'G')).countP (fun node => dict node = some i) := by
      rw [List.range_add, List.countP_append, List.countP_map, List.countP_map, List.countP_map]
      congr 1
      · apply List.countP_congr
        intro s hs
        simp [hdata s (List.mem_range.mp hs)]
      · apply List.countP_congr
        intro j hj
        simp [hglobal j (List.mem_range.mp hj)]
    have hlocals : ((List.range (localGroupNumber n r)).map (nodeId 'L')).countP
        (fun node => dict node = some i) ≤ 1 := by
      rw [List.countP_map]
      exact (countP_locals hlocal i).trans_le (List.nodup_iff_count_le_one.mp List.nodup_range i)
    have hle : (List.range (k + globalNumber n k r)).countP (fun s => s / r = i) ≤ r := by
      rw [countP_div_eq hv.r_pos]
      exact min_le_left _ _
    simp only [nodeStable_eq, origins, List.map_append, List.map_map, List.countP_append]
    change ((List.range k).map (nodeId 'D')).countP _ + ((List.range (localGroupNumber n r)).map (nodeId 'L')).countP _ +
      ((List.range (globalNumber n k r)).map (nodeId 'G')).countP _ ≤ r + 1
    omega

/-- The first digit of every data block is enough. -/
theorem data_iff (hr : 1 ≤ r) : (∀ i < k, leading 10 i / r = i / r) ↔ k ≤ max 10 r := by
  constructor
  · intro h
    by_contra hk
    have h10 := h 10 (by omega)
    rw [leading_ten_self] at h10
    have hr11 : 10 < r := by
      by_contra hle
      have h1 : 1 ≤ 10 / r := (Nat.le_div_iff_mul_le hr).mpr (by omega)
      rcases Nat.lt_or_ge 1 r with hr2 | hr1
      · rw [Nat.div_eq_of_lt hr2] at h10
        omega
      · obtain rfl : r = 1 := by omega
        omega
    have hlast := h r (by omega)
    rw [Nat.div_self (by omega), Nat.div_eq_of_lt] at hlast
    · omega
    · exact (leading_lt (by decide) r).trans hr11
  · intro hk i hi
    by_cases h : i < 10
    · rw [leading_of_lt h]
    · rw [Nat.div_eq_of_lt (show i < r by omega),
        Nat.div_eq_of_lt (lt_of_le_of_lt (leading_le 10 i) (by omega))]

theorem data_two (hk : k ≤ max 10 r) {i : Nat} (hi : i < k) : leading 100 i / r = i / r := by
  by_cases h : i < 10
  · rw [leading_of_lt (by omega)]
  · rw [Nat.div_eq_of_lt (show i < r by omega),
      Nat.div_eq_of_lt (lt_of_le_of_lt (leading_le 100 i) (by omega))]

theorem local_iff (m : Nat) : (∀ i < m, leading 10 i = i) ↔ m ≤ 10 := by
  constructor
  · intro h
    by_contra hm
    have : leading 10 10 < 10 := leading_lt (by decide) 10
    rw [h 10 (by omega)] at this
    omega
  · intro hm i hi
    exact leading_of_lt (by omega)

/-- The first digits of the global parities are enough when there are few of them, or when
all but the first fall in one group. -/
theorem global_iff (g : Nat) : (∀ j < g, (leading 10 j + k) / r = (k + j) / r) ↔
    g ≤ 10 ∨ (k + 1) / r = (k + g - 1) / r := by
  have hmono : ∀ {a b}, a ≤ b → (k + a) / r ≤ (k + b) / r := fun h => Nat.div_le_div_right (by omega)
  constructor
  · intro h
    by_contra hno
    push Not at hno
    obtain ⟨hg, hne⟩ := hno
    have h10 := h 10 hg
    rw [leading_ten_self, Nat.add_comm] at h10
    -- Every first digit lies between those of 1 and 10, which have one group.
    have hlast := h (g - 1) (by omega)
    have hfirst : 1 ≤ leading 10 (g - 1) := one_le_leading le_rfl (by omega)
    have hlt : leading 10 (g - 1) < 10 := leading_lt (by decide) (g - 1)
    have hlow := hmono hfirst
    have hhigh := hmono hlt.le
    rw [Nat.add_comm (leading 10 (g - 1))] at hlast
    rw [show k + (g - 1) = k + g - 1 by omega] at hlast
    omega
  · rintro (hg | he) j hj
    · rw [leading_of_lt (by omega), Nat.add_comm]
    · by_cases h : j < 10
      · rw [leading_of_lt h, Nat.add_comm]
      · have hfirst : 1 ≤ leading 10 j := one_le_leading le_rfl (by omega)
        have hpos := hmono hfirst
        have hle := hmono (leading_le 10 j)
        have hlast := hmono (show j ≤ g - 1 by omega)
        rw [show k + (g - 1) = k + g - 1 by omega, ← he] at hlast
        rw [Nat.add_comm]
        omega

/-- Both simulators compute their dictionaries, the encoder's groups, and the same groups. -/
def SimulatorsMatch (n k r : Nat) : Prop :=
  ∃ ours random, ourDict n k r = .ok ours ∧ randomDict n k r = .ok random ∧
    GroupsMatch n k r ours ∧ GroupsMatch n k r random ∧ ∀ node ∈ nodeStable n k r, ours node = random node

theorem mem_origins {n k r : Nat} (o : Origin) : o ∈ origins n k r ↔ match o with
    | .data i => i < k
    | .global j => j < globalNumber n k r
    | .localParity i => i < localGroupNumber n r := by
  cases o <;> simp [origins]

/-- The simulators find the encoder's groups exactly when one digit tells enough of each index. -/
theorem simulatorsMatch_iff (hv : Valid n k r) : SimulatorsMatch n k r ↔
    k ≤ max 10 r ∧ localGroupNumber n r ≤ 10 ∧
      (globalNumber n k r ≤ 10 ∨ (k + 1) / r = (k + globalNumber n k r - 1) / r) := by
  obtain ⟨ours, hours, hourVal⟩ := exists_dict (k := k) hv.r_pos (ourDataIndex_nodeId 'D') n
  obtain ⟨random, hrandom, hranVal⟩ := exists_dict (k := k) hv.r_pos (randomDataIndex_nodeId 'D') n
  rw [← data_iff hv.r_pos, ← local_iff, ← global_iff]
  constructor
  · rintro ⟨ours', random', -, hrandom', -, hmatch, -⟩
    obtain rfl : random = random' := Except.ok.inj (hrandom.symm.trans hrandom')
    refine ⟨fun i hi => ?_, fun i hi => ?_, fun j hj => ?_⟩
    · exact Option.some.inj ((hranVal (.data i) ((mem_origins _).mpr hi)).symm.trans (hmatch.data i hi))
    · exact Option.some.inj
        ((hranVal (.localParity i) ((mem_origins _).mpr hi)).symm.trans (hmatch.localParity i hi))
    · exact Option.some.inj ((hranVal (.global j) ((mem_origins _).mpr hj)).symm.trans (hmatch.global j hj))
  · rintro ⟨hdata, hlocal, hglobal⟩
    have hk := (data_iff hv.r_pos).mp hdata
    have hmatch : ∀ {index : Nat → Nat} {dict : Dict}, (∀ i < k, index i / r = i / r) →
        (∀ o ∈ origins n k r, dict (name o) = some (groupOf index k r o)) → GroupsMatch n k r dict := by
      intro index dict hindex hdict
      apply groupsMatch_of_values hv
      · intro i hi
        rw [← hindex i hi]
        exact hdict (.data i) ((mem_origins _).mpr hi)
      · intro j hj
        rw [← hglobal j hj]
        exact hdict (.global j) ((mem_origins _).mpr hj)
      · intro i hi
        have := hdict (.localParity i) ((mem_origins _).mpr hi)
        rwa [groupOf, hlocal i hi] at this
    refine ⟨ours, random, hours, hrandom, hmatch (fun i hi => data_two hk hi) hourVal, hmatch hdata hranVal, ?_⟩
    intro node hnode
    rw [nodeStable_eq] at hnode
    obtain ⟨o, ho, rfl⟩ := List.mem_map.mp hnode
    rw [hourVal o ho, hranVal o ho]
    cases o with
    | data i => rw [groupOf, groupOf, hdata i ((mem_origins _).mp ho), data_two hk ((mem_origins _).mp ho)]
    | global j => rfl
    | localParity i => rfl

theorem simulatorsMatch_iff_six : SimulatorsMatch 6 3 2 ∧ ¬ SimulatorsMatch 24 15 5 :=
  ⟨(simulatorsMatch_iff ⟨by decide, by decide, by decide⟩).mpr (by decide),
    fun h => absurd ((simulatorsMatch_iff ⟨by decide, by decide, by decide⟩).mp h) (by decide)⟩

/-- Data block 10 counts as data block 1. -/
theorem not_simulatorsMatch_sixteen : ¬ SimulatorsMatch 16 11 7 := by
  rintro ⟨ours, random, -, hrandom, -, hmatch, -⟩
  obtain ⟨dict, hdict, hval⟩ := exists_dict (k := 11) (show 1 ≤ 7 by decide) (randomDataIndex_nodeId 'D') 16
  obtain rfl : dict = random := Except.ok.inj (hdict.symm.trans hrandom)
  have h := (hval (.data 10) ((mem_origins _).mpr (by decide))).symm.trans (hmatch.data 10 (by decide))
  rw [groupOf, leading_ten_self] at h
  exact absurd h (by decide)

end Match

end OptLrc.Groups
