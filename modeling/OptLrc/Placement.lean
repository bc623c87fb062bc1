import Mathlib.Data.Rat.Defs
import Mathlib.Data.List.Nodup
import Mathlib.Algebra.Order.BigOperators.Group.List
import Mathlib.Algebra.Order.Field.Rat

namespace OptLrc.Placement

variable {α : Type}

/-- The slices `xs[eg:eg+step]` for `eg in range(0, len(xs), step)`. -/
def slices {β : Type} (step : Nat) (xs : List β) : List (List β) :=
  (List.range ((xs.length + step - 1) / step)).map (fun j => (xs.drop (j * step)).take step)

/-- The racks of `our_placement`, from `rank_group`, `r` and the capacity `b`. -/
def ourPlacement (rankGroup : List (List α)) (r b : Nat) : List (List α) :=
  (if r + 1 ≤ b then (slices (b / (r + 1)) rankGroup).map List.flatten else []) ++
    if b < r + 1 then rankGroup.flatMap (slices b) else []

def holds (dict : α → Nat) (id : Nat) (rack : List α) : Bool :=
  rack.any (fun node => dict node = id)

/-- What the cost loop stores for a node that it meets in the rack `item`. -/
def nodeCost [DecidableEq α] (dict : α → Nat) (rank : List (List α)) (item : List α) (node : α) : Nat :=
  (rank.erase item).foldl (fun cost other => if holds dict (dict node) other then cost + 1 else cost) 0

/-- The dictionary `cost` after the loop over all racks. -/
def cost [DecidableEq α] (dict : α → Nat) (rank : List (List α)) : α → Option Nat :=
  rank.foldl (fun cost item => item.foldl
    (fun cost node => Function.update cost node (some (nodeCost dict rank item node))) cost)
    (fun _ => none)

/-- The sum of `cost[node]` over the nodes that are counted. -/
def sumCost (cost : α → Option Nat) (counted : α → Bool) (nodes : List α) : Option Nat :=
  nodes.foldlM (fun sum node => if counted node then (cost node).map (sum + ·) else some sum) 0

/-- `DRC` counts the data blocks and `NRC` all blocks; both are divided by `k`. -/
def repairCost (cost : α → Option Nat) (counted : α → Bool) (nodes : List α) (k : Nat) : Option Rat :=
  (sumCost cost counted nodes).map (fun sum => (sum : Rat) / k)

section Slices

variable {β : Type}

theorem take_mul_succ (step m : Nat) (xs : List β) :
    xs.take (m * step) ++ (xs.drop (m * step)).take step = xs.take ((m + 1) * step) := by
  rw [Nat.add_mul, Nat.one_mul, List.take_add]

theorem flatten_slices (step : Nat) (hstep : 1 ≤ step) (xs : List β) :
    (slices step xs).flatten = xs := by
  have hpre : ∀ m, ((List.range m).map (fun j => (xs.drop (j * step)).take step)).flatten =
      xs.take (m * step) := by
    intro m
    induction m with
    | zero => simp
    | succ m ih =>
      rw [List.range_succ, List.map_append, List.flatten_append, ih]
      simpa using take_mul_succ step m xs
  rw [slices, hpre, List.take_of_length_le]
  have hq := Nat.div_add_mod' (xs.length + step - 1) step
  have hm := Nat.mod_lt (xs.length + step - 1) hstep
  omega

theorem length_le_of_mem_slices {step : Nat} {xs slice : List β} (h : slice ∈ slices step xs) :
    slice.length ≤ step := by
  obtain ⟨j, -, rfl⟩ := List.mem_map.mp h
  exact List.length_take_le _ _

theorem length_slices (step : Nat) (xs : List β) :
    (slices step xs).length = (xs.length + step - 1) / step := by
  simp [slices]

end Slices

section Racks

variable {rankGroup : List (List α)} {r b : Nat}

theorem flatten_ourPlacement (hb : 1 ≤ b) : (ourPlacement rankGroup r b).flatten = rankGroup.flatten := by
  unfold ourPlacement
  by_cases h : r + 1 ≤ b
  · have hstep : 1 ≤ b / (r + 1) := (Nat.le_div_iff_mul_le (by omega)).mpr (by omega)
    rw [if_pos h, if_neg (by omega), List.append_nil, ← List.flatten_flatten,
      flatten_slices _ hstep]
  · rw [if_neg h, if_pos (by omega), List.nil_append]
    induction rankGroup with
    | nil => rfl
    | cons group groups ih =>
      rw [List.flatMap_cons, List.flatten_append, ih, flatten_slices b hb, List.flatten_cons]

theorem length_flatten_le (c : Nat) (xs : List (List α)) (h : ∀ x ∈ xs, x.length ≤ c) :
    xs.flatten.length ≤ xs.length * c := by
  induction xs with
  | nil => simp
  | cons x xs ih =>
    have h1 := h x (by simp)
    have h2 := ih (fun y hy => h y (by simp [hy]))
    rw [List.flatten_cons, List.length_append, List.length_cons, Nat.add_mul]
    omega

theorem length_le_of_mem_ourPlacement (hsize : ∀ group ∈ rankGroup, group.length ≤ r + 1) :
    ∀ rack ∈ ourPlacement rankGroup r b, rack.length ≤ b := by
  intro rack hrack
  unfold ourPlacement at hrack
  rcases List.mem_append.mp hrack with h | h
  · by_cases hb : r + 1 ≤ b
    · rw [if_pos hb] at h
      obtain ⟨slice, hslice, rfl⟩ := List.mem_map.mp h
      have hlen := length_flatten_le (r + 1) slice (fun group hg => hsize group ?_)
      · have h1 := Nat.mul_le_mul_right (r + 1) (length_le_of_mem_slices hslice)
        exact hlen.trans (h1.trans (Nat.div_mul_le_self b (r + 1)))
      · obtain ⟨j, -, rfl⟩ := List.mem_map.mp hslice
        exact List.mem_of_mem_drop (List.mem_of_mem_take hg)
    · simp [hb] at h
  · by_cases hb : b < r + 1
    · rw [if_pos hb] at h
      obtain ⟨group, -, hmem⟩ := List.mem_flatMap.mp h
      exact length_le_of_mem_slices hmem
    · simp [hb] at h

end Racks

section Cost

variable [DecidableEq α] (dict : α → Nat)

/-- A node's cost is one less than the number of racks that hold a node of its group,
whichever rack the loop met it in. -/
theorem nodeCost_eq (rank : List (List α)) (item : List α) (node : α) (hitem : item ∈ rank)
    (hnode : node ∈ item) :
    nodeCost dict rank item node = rank.countP (holds dict (dict node)) - 1 := by
  have hfold : ∀ (racks : List (List α)) (m : Nat), racks.foldl
      (fun cost other => if holds dict (dict node) other then cost + 1 else cost) m =
      m + racks.countP (holds dict (dict node)) := by
    intro racks
    induction racks with
    | nil => simp
    | cons rack racks ih =>
      intro m
      rw [List.foldl_cons, ih, List.countP_cons]
      split <;> omega
  have hholds : holds dict (dict node) item = true :=
    List.any_eq_true.mpr ⟨node, hnode, by simp⟩
  rw [nodeCost, hfold, Nat.zero_add, (List.perm_cons_erase hitem).countP_eq, List.countP_cons, hholds]
  simp

theorem foldl_update (f : α → Nat) (nodes : List α) (c : α → Option Nat) (node : α) :
    nodes.foldl (fun cost x => Function.update cost x (some (f x))) c node =
      if node ∈ nodes then some (f node) else c node := by
  induction nodes generalizing c with
  | nil => simp
  | cons x nodes ih =>
    rw [List.foldl_cons, ih]
    by_cases hx : node = x
    · simp [hx]
    · simp [hx]

theorem cost_eq (rank : List (List α)) (node : α) (hnode : node ∈ rank.flatten) :
    cost dict rank node = some (rank.countP (holds dict (dict node)) - 1) := by
  have hrun : ∀ (racks : List (List α)) (c : α → Option Nat), (∀ item ∈ racks, item ∈ rank) →
      racks.foldl (fun cost item => item.foldl
        (fun cost x => Function.update cost x (some (nodeCost dict rank item x))) cost) c node =
        if node ∈ racks.flatten then some (rank.countP (holds dict (dict node)) - 1) else c node := by
    intro racks
    induction racks with
    | nil => simp
    | cons item racks ih =>
      intro c hsub
      rw [List.foldl_cons, ih _ (fun y hy => hsub y (by simp [hy])), foldl_update]
      by_cases hlater : node ∈ racks.flatten
      · rw [if_pos hlater, if_pos (by simp only [List.flatten_cons, List.mem_append, hlater, or_true])]
      · by_cases hhere : node ∈ item
        · rw [if_neg hlater, if_pos hhere, if_pos (by simp [hhere]),
            nodeCost_eq dict rank item node (hsub item (by simp)) hhere]
        · rw [if_neg hlater, if_neg hhere, if_neg (by
            rw [List.flatten_cons, List.mem_append]
            exact not_or.mpr ⟨hhere, hlater⟩)]
  rw [cost, hrun rank _ (fun _ h => h), if_pos hnode]

end Cost

section Optimal

variable {rankGroup : List (List α)} {dict : α → Nat} {r b : Nat}

/-- The blocks of one group fill at least their number over the capacity in racks. -/
theorem countP_flatten_le (id : Nat) (rank : List (List α)) (hcap : ∀ rack ∈ rank, rack.length ≤ b) :
    rank.flatten.countP (fun node => dict node = id) ≤ rank.countP (holds dict id) * b := by
  induction rank with
  | nil => simp
  | cons rack rank ih =>
    have h1 := ih (fun x hx => hcap x (by simp [hx]))
    rw [List.flatten_cons, List.countP_append, List.countP_cons]
    by_cases hh : holds dict id rack = true
    · have h2 : rack.countP (fun node => dict node = id) ≤ b :=
        List.countP_le_length.trans (hcap rack (by simp))
      rw [if_pos hh, Nat.add_mul]
      omega
    · have h2 : rack.countP (fun node => dict node = id) = 0 := by
        rw [List.countP_eq_zero]
        intro node hnode hid
        exact hh (List.any_eq_true.mpr ⟨node, hnode, hid⟩)
      rw [if_neg hh, h2, Nat.add_zero]
      omega

/-- `dict` sends each block to its group, when the first group has number `first`. -/
def IndexedFrom (dict : α → Nat) (first : Nat) (rankGroup : List (List α)) : Prop :=
  ∀ i group, rankGroup[i]? = some group → ∀ node ∈ group, dict node = first + i

theorem holds_slice_iff (hdict : IndexedFrom dict 0 rankGroup) {step j id : Nat}
    (h : holds dict id ((rankGroup.drop (j * step)).take step).flatten = true) : id / step = j := by
  obtain ⟨node, hnode, hid⟩ := List.any_eq_true.mp h
  obtain ⟨group, hgroup, hmem⟩ := List.mem_flatten.mp hnode
  obtain ⟨i, hi⟩ := List.mem_iff_getElem?.mp hgroup
  have hlt : i < step := by
    by_contra hge
    rw [List.getElem?_take_eq_none (by omega)] at hi
    cases hi
  rw [List.getElem?_take_of_lt hlt, List.getElem?_drop] at hi
  have := hdict _ group hi node hmem
  simp only [decide_eq_true_eq] at hid
  rw [← hid, this, Nat.zero_add, Nat.mul_comm, Nat.mul_add_div (by omega), Nat.div_eq_of_lt hlt, Nat.add_zero]

theorem countP_whole_le_one (hdict : IndexedFrom dict 0 rankGroup) (step id : Nat) :
    ((slices step rankGroup).map List.flatten).countP (holds dict id) ≤ 1 := by
  rw [slices, List.map_map, List.countP_map]
  refine (List.countP_mono_left (q := fun j => j == id / step) ?_).trans ?_
  · intro j _ h
    simpa using (holds_slice_iff hdict h).symm
  · exact List.nodup_iff_count_le_one.mp List.nodup_range _

theorem mem_of_mem_slices {step : Nat} {xs slice : List α} (h : slice ∈ slices step xs) {x : α}
    (hx : x ∈ slice) : x ∈ xs := by
  obtain ⟨j, -, rfl⟩ := List.mem_map.mp h
  exact List.mem_of_mem_drop (List.mem_of_mem_take hx)

theorem countP_slices_eq_zero (id : Nat) (groups : List (List α))
    (h : ∀ node ∈ groups.flatten, dict node ≠ id) :
    (groups.flatMap (slices b)).countP (holds dict id) = 0 := by
  rw [List.countP_eq_zero]
  intro slice hslice hholds
  obtain ⟨group, hgroup, hs⟩ := List.mem_flatMap.mp hslice
  obtain ⟨node, hnode, hid⟩ := List.any_eq_true.mp hholds
  exact h node (List.mem_flatten.mpr ⟨group, hgroup, mem_of_mem_slices hs hnode⟩)
    (of_decide_eq_true hid)

theorem countP_slices_le (id first : Nat) (hdict : IndexedFrom dict first rankGroup) :
    (rankGroup.flatMap (slices b)).countP (holds dict id) ≤
      (rankGroup.flatten.countP (fun node => dict node = id) + b - 1) / b := by
  induction rankGroup generalizing first with
  | nil => simp
  | cons group groups ih =>
    have hhead : ∀ node ∈ group, dict node = first := fun node hnode => by
      simpa using hdict 0 group rfl node hnode
    have htail : IndexedFrom dict (first + 1) groups := fun i g hg node hnode => by
      rw [hdict (i + 1) g (by simpa using hg) node hnode]
      omega
    rw [List.flatMap_cons, List.countP_append, List.flatten_cons, List.countP_append]
    by_cases hid : id = first
    · have hnot : ∀ node ∈ groups.flatten, dict node ≠ id := by
        intro node hnode
        obtain ⟨g, hg, hmem⟩ := List.mem_flatten.mp hnode
        obtain ⟨i, hi⟩ := List.mem_iff_getElem?.mp hg
        rw [htail i g hi node hmem]
        omega
      have hz : groups.flatten.countP (fun node => dict node = id) = 0 :=
        List.countP_eq_zero.mpr (fun node hnode h => hnot node hnode (of_decide_eq_true h))
      have hall : group.countP (fun node => dict node = id) = group.length :=
        List.countP_eq_length.mpr (fun node hnode => by simp [hhead node hnode, hid])
      rw [countP_slices_eq_zero id groups hnot, hz, hall, Nat.add_zero, Nat.add_zero,
        ← length_slices]
      exact List.countP_le_length
    · have hnot : ∀ node ∈ [group].flatten, dict node ≠ id := by
        intro node hnode
        rw [hhead node (by simpa using hnode)]
        exact Ne.symm hid
      have hz : group.countP (fun node => dict node = id) = 0 :=
        List.countP_eq_zero.mpr (fun node hnode h =>
          hnot node (by simpa using hnode) (of_decide_eq_true h))
      have hs := countP_slices_eq_zero (b := b) id [group] hnot
      rw [List.flatMap_singleton] at hs
      rw [hs, hz, Nat.zero_add, Nat.zero_add]
      exact ih (first + 1) htail

/-- No placement of the same blocks meets a group in fewer racks. -/
theorem countP_ourPlacement_le (hb : 1 ≤ b) (hdict : IndexedFrom dict 0 rankGroup)
    (other : List (List α)) (hperm : other.flatten.Perm rankGroup.flatten)
    (hcap : ∀ rack ∈ other, rack.length ≤ b) (node : α) (hnode : node ∈ rankGroup.flatten) :
    (ourPlacement rankGroup r b).countP (holds dict (dict node)) ≤
      other.countP (holds dict (dict node)) := by
  have hle : other.flatten.countP (fun x => dict x = dict node) ≤
      other.countP (holds dict (dict node)) * b := countP_flatten_le (dict node) other hcap
  rw [hperm.countP_eq] at hle
  have hpos : 0 < rankGroup.flatten.countP (fun x => dict x = dict node) :=
    List.countP_pos_iff.mpr ⟨node, hnode, by simp⟩
  unfold ourPlacement
  by_cases h : r + 1 ≤ b
  · rw [if_pos h, if_neg (by omega), List.append_nil]
    refine (countP_whole_le_one hdict _ _).trans ?_
    by_contra hzero
    rw [Nat.lt_one_iff.mp (Nat.lt_of_not_le hzero), Nat.zero_mul] at hle
    omega
  · rw [if_neg h, if_pos (by omega), List.nil_append]
    refine (countP_slices_le (dict node) 0 hdict).trans ?_
    rw [Nat.div_le_iff_le_mul_add_pred hb, Nat.mul_comm]
    omega

theorem sumCost_eq {c : α → Option Nat} {f : α → Nat} (counted : α → Bool) (nodes : List α)
    (h : ∀ node ∈ nodes, c node = some (f node)) :
    sumCost c counted nodes = some ((nodes.filter counted).map f).sum := by
  have hrun : ∀ (rest : List α) (sum : Nat), (∀ node ∈ rest, c node = some (f node)) →
      rest.foldlM (fun sum node => if counted node then (c node).map (sum + ·) else some sum) sum =
        some (sum + ((rest.filter counted).map f).sum) := by
    intro rest
    induction rest with
    | nil => simp
    | cons node rest ih =>
      intro sum hrest
      rw [List.foldlM_cons]
      by_cases hc : counted node = true
      · simp only [hc, if_true, hrest node (by simp), Option.map_some, List.filter_cons_of_pos,
          List.map_cons, List.sum_cons, ← Nat.add_assoc]
        exact ih _ (fun x hx => hrest x (by simp [hx]))
      · simp only [hc, Bool.false_eq_true, if_false, List.filter_cons_of_neg, not_false_eq_true]
        exact ih _ (fun x hx => hrest x (by simp [hx]))
  rw [sumCost, hrun nodes 0 h, Nat.zero_add]

theorem repairCost_eq {c : α → Option Nat} {f : α → Nat} (counted : α → Bool) (nodes : List α) (k : Nat)
    (h : ∀ node ∈ nodes, c node = some (f node)) :
    repairCost c counted nodes k = some (((((nodes.filter counted).map f).sum : Nat) : Rat) / k) := by
  rw [repairCost, sumCost_eq counted nodes h]
  rfl

variable [DecidableEq α]

/-- The racks of `our_placement` partition the blocks within the capacity, and no other
placement has a smaller cost for any block, or a smaller `DRC` or `NRC`. -/
theorem ourPlacement_optimal (rankGroup : List (List α)) (dict : α → Nat) (isData : α → Bool)
    (r b k : Nat) (hb : 1 ≤ b)
    (hnodup : rankGroup.flatten.Nodup) (hsize : ∀ group ∈ rankGroup, group.length ≤ r + 1)
    (hdict : ∀ i (h : i < rankGroup.length), ∀ node ∈ rankGroup[i], dict node = i) :
    (ourPlacement rankGroup r b).flatten.Nodup ∧
    (∀ node, node ∈ (ourPlacement rankGroup r b).flatten ↔ node ∈ rankGroup.flatten) ∧
    (∀ rack ∈ ourPlacement rankGroup r b, rack.length ≤ b) ∧
    ∀ other : List (List α), other.flatten.Perm rankGroup.flatten →
      (∀ rack ∈ other, rack.length ≤ b) →
      (∀ node ∈ rankGroup.flatten, ∃ c c', cost dict (ourPlacement rankGroup r b) node = some c ∧
        cost dict other node = some c' ∧ c ≤ c') ∧
      ∀ nodes : List α, (∀ node ∈ nodes, node ∈ rankGroup.flatten) →
        (∃ drc drc', repairCost (cost dict (ourPlacement rankGroup r b)) isData nodes k = some drc ∧
          repairCost (cost dict other) isData nodes k = some drc' ∧ drc ≤ drc') ∧
        ∃ nrc nrc', repairCost (cost dict (ourPlacement rankGroup r b)) (fun _ => true) nodes k =
            some nrc ∧
          repairCost (cost dict other) (fun _ => true) nodes k = some nrc' ∧ nrc ≤ nrc' := by
  have hflat : (ourPlacement rankGroup r b).flatten = rankGroup.flatten := flatten_ourPlacement hb
  refine ⟨hflat ▸ hnodup, fun node => by rw [hflat], length_le_of_mem_ourPlacement hsize, ?_⟩
  intro other hperm hcap
  have hours : ∀ node ∈ rankGroup.flatten, cost dict (ourPlacement rankGroup r b) node =
      some ((ourPlacement rankGroup r b).countP (holds dict (dict node)) - 1) :=
    fun node hnode => cost_eq dict _ node (hflat ▸ hnode)
  have hother : ∀ node ∈ rankGroup.flatten, cost dict other node =
      some (other.countP (holds dict (dict node)) - 1) :=
    fun node hnode => cost_eq dict _ node (hperm.mem_iff.mpr hnode)
  have hle : ∀ node ∈ rankGroup.flatten,
      (ourPlacement rankGroup r b).countP (holds dict (dict node)) - 1 ≤
        other.countP (holds dict (dict node)) - 1 := fun node hnode =>
    Nat.sub_le_sub_right (countP_ourPlacement_le hb
      (fun i group hg node hn => by
        obtain ⟨hi, rfl⟩ := List.getElem?_eq_some_iff.mp hg
        rw [Nat.zero_add, hdict i hi node hn])
      other hperm hcap node hnode) 1
  refine ⟨fun node hnode => ⟨_, _, hours node hnode, hother node hnode, hle node hnode⟩, ?_⟩
  intro nodes hnodes
  have hcost : ∀ counted : α → Bool, ∃ c c',
      repairCost (cost dict (ourPlacement rankGroup r b)) counted nodes k = some c ∧
      repairCost (cost dict other) counted nodes k = some c' ∧ c ≤ c' := by
    intro counted
    refine ⟨_, _, repairCost_eq counted nodes k (fun x hx => hours x (hnodes x hx)),
      repairCost_eq counted nodes k (fun x hx => hother x (hnodes x hx)), ?_⟩
    refine div_le_div_of_nonneg_right (Nat.cast_le.mpr ?_) (Nat.cast_nonneg k)
    exact List.sum_le_sum (fun x hx => hle x (hnodes x (List.mem_of_mem_filter hx)))
  exact ⟨hcost isData, hcost _⟩

theorem ourPlacement_optimal_pairs :
    ∃ c c', cost (· / 2) (ourPlacement [[0, 1], [2, 3]] 1 3) 2 = some c ∧
      cost (· / 2) [[0, 2], [1, 3]] 2 = some c' ∧ c ≤ c' :=
  ((ourPlacement_optimal [[0, 1], [2, 3]] (· / 2) (fun _ => true) 1 3 2 (by decide) (by decide)
    (by decide) (by decide)).2.2.2 [[0, 2], [1, 3]] (by decide) (by decide)).1 2 (by decide)

end Optimal

end OptLrc.Placement
