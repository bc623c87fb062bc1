import OptLrc.AzureRacks

namespace OptLrc.AzureCosts

open OptLrc.Memory OptLrc.Distance OptLrc.Layout OptLrc.Placement OptLrc.Simulator OptLrc.Groups OptLrc.Capacity
open OptLrc.Azure OptLrc.AzureRacks

def metLRC (dict : Dict) (node other : Name) : Bool :=
  if node.head? = some 'G' then other.head? = some 'D' else dict other = dict node

def metLRC1 (dict : Dict) (node other : Name) : Bool := dict other = dict node

variable {n k r b localNode g globalGroup : Nat} {dict : Dict}

theorem lookup_name (hdict : Grouped k r localNode g globalGroup dict) {node : Name}
    (hnode : node ∈ (azureOrigins k localNode g).map name) : ∃ id, lookup dict node = .ok id ∧ dict node = some id := by
  obtain ⟨o, ho, rfl⟩ := List.mem_map.mp hnode
  exact ⟨azureGroupOf r globalGroup o, by rw [lookup, hdict o ho], hdict o ho⟩

theorem charAt_name (node : Name) (hnode : node ∈ (azureOrigins k localNode g).map name) :
    ∃ kind, charAt node 0 = .ok kind ∧ node.head? = some kind := by
  obtain ⟨o, ho, rfl⟩ := List.mem_map.mp hnode
  cases o <;> exact ⟨_, rfl, rfl⟩

theorem meetsLRC1_eq (hdict : Grouped k r localNode g globalGroup dict) {node other : Name}
    (hnode : node ∈ (azureOrigins k localNode g).map name) (hother : other ∈ (azureOrigins k localNode g).map name) :
    meetsLRC1 dict node other = .ok (metLRC1 dict node other) := by
  obtain ⟨id, hlookup, hid⟩ := lookup_name hdict hnode
  obtain ⟨id', hlookup', hid'⟩ := lookup_name hdict hother
  simp [meetsLRC1, metLRC1, hlookup, hlookup', hid, hid']

theorem meetsLRC_eq (hdict : Grouped k r localNode g globalGroup dict) {node other : Name}
    (hnode : node ∈ (azureOrigins k localNode g).map name) (hother : other ∈ (azureOrigins k localNode g).map name) :
    meetsLRC dict node other = .ok (metLRC dict node other) := by
  obtain ⟨kind, hchar, hkind⟩ := charAt_name node hnode
  obtain ⟨kind', hchar', hkind'⟩ := charAt_name other hother
  obtain ⟨id, hlookup, hid⟩ := lookup_name hdict hnode
  obtain ⟨id', hlookup', hid'⟩ := lookup_name hdict hother
  by_cases hg : kind = 'G'
  · simp [meetsLRC, metLRC, hchar, hkind, hchar', hkind', hg]
  · simp [meetsLRC, metLRC, hchar, hkind, hg, hlookup, hlookup', hid, hid']

section Sums

theorem filter_data (k localNode g : Nat) :
    ((azureOrigins k localNode g).map name).filter (fun node => node.head? = some 'D') = (List.range k).map (nodeId 'D') := by
  simp only [azureOrigins, List.map_append, List.map_map, List.filter_append, List.filter_map]
  have hdata : (List.range k).filter ((fun node : Name => decide (node.head? = some 'D')) ∘ name ∘ Origin.data) =
      List.range k := List.filter_eq_self.mpr (fun s _ => rfl)
  have hlocal : (List.range localNode).filter
      ((fun node : Name => decide (node.head? = some 'D')) ∘ name ∘ Origin.localParity) = [] :=
    List.filter_eq_nil_iff.mpr (fun s _ => by simp [name, nodeId])
  have hglobal : (List.range g).filter ((fun node : Name => decide (node.head? = some 'D')) ∘ name ∘ Origin.global) = [] :=
    List.filter_eq_nil_iff.mpr (fun s _ => by simp [name, nodeId])
  rw [hdata, hlocal, hglobal, List.map_nil, List.map_nil, List.append_nil, List.append_nil]
  rfl

theorem sum_names (f : Name → Nat) (k localNode g : Nat) : (((azureOrigins k localNode g).map name).map f).sum =
    (∑ s ∈ Finset.range k, f (nodeId 'D' s)) + (∑ l ∈ Finset.range localNode, f (nodeId 'L' l)) +
      ∑ j ∈ Finset.range g, f (nodeId 'G' j) := by
  simp only [azureOrigins, List.map_append, List.map_map, List.sum_append]
  rfl

theorem placementCost_eq {meets : Name → Name → Except Raise Bool} {rank : List (List Name)} {cost : Dict}
    {f : Name → Nat} (hk : 1 ≤ k) (hcost : azureCost meets rank = .ok cost)
    (hf : ∀ node ∈ (azureOrigins k localNode g).map name, cost node = some (f node)) :
    placementCost meets k ((azureOrigins k localNode g).map name) rank =
      .ok (((∑ s ∈ Finset.range k, f (nodeId 'D' s) : Nat) : Rat) / k,
        (((∑ s ∈ Finset.range k, f (nodeId 'D' s)) + (∑ l ∈ Finset.range localNode, f (nodeId 'L' l)) +
          ∑ j ∈ Finset.range g, f (nodeId 'G' j) : Nat) : Rat) / k) := by
  have hquotient : ∀ a, quotient a k = .ok ((a : Rat) / k) := fun a => if_neg (by omega)
  have hall : ((azureOrigins k localNode g).map name).filter (fun _ => true) = (azureOrigins k localNode g).map name :=
    List.filter_eq_self.mpr (fun _ _ => rfl)
  rw [placementCost, hcost, ok_bind, costSum_eq _ _ (fun node hnode _ => hf node hnode), ok_bind, hquotient, ok_bind,
    costSum_eq _ _ (fun node hnode _ => hf node hnode), ok_bind, hquotient, ok_bind, filter_data, hall, sum_names,
    List.map_map]
  rfl

end Sums

/-- The cost of a block of group `i`, in racks beside its own. -/
def blockCost (k r b i : Nat) : Nat := racksFor (min r (k - i * r) + 1) b - 1

def dataCost (k r b : Nat) : Nat := ∑ s ∈ Finset.range k, blockCost k r b (s / r)

def parityCost (k r b : Nat) : Nat := ∑ i ∈ Finset.range (dataGroups k r), blockCost k r b i

/-- The racks that hold data. -/
def dataRacks (k r b : Nat) : Nat := ∑ i ∈ Finset.range (dataGroups k r), racksFor (min r (k - i * r)) b

section Values

theorem azureSize_eq (hr : 1 ≤ r) {i : Nat} (hi : i < localNode) : azureSize k r localNode g globalGroup i =
    min r (k - i * r) + 1 + if i = globalGroup then g else 0 := by
  rw [azureSize, List.length_append, length_front hr, length_back hi, Nat.add_assoc]

theorem front_last (hr : 1 ≤ r) : front k r (dataGroups k r) = [] := by
  have hfull := (ceil_bounds k r hr).1
  apply List.eq_nil_of_length_eq_zero
  rw [length_front hr, dataGroups]
  omega

/-- A block that is repaired from its group costs the other racks of the group. -/
theorem stored_group {met : Name → Name → Bool} (hb : 1 ≤ b) (hdict : Grouped k r localNode g globalGroup dict)
    {node : Name} {id : Nat} (hid : dict node = some id) (hle : id ≤ globalGroup)
    (hmet : ∀ other, met node other = decide (dict other = some id)) {v : Option Nat}
    (h : Stored met (azureRacks k r localNode g globalGroup b) node v) :
    v = some (racksFor (azureSize k r localNode g globalGroup id) b - 1) := by
  obtain ⟨item, hitem, hnode, rfl⟩ := h
  have hown : item.any (fun other => decide (dict other = some id)) = true :=
    List.any_eq_true.mpr ⟨node, hnode, decide_eq_true hid⟩
  rw [show met node = fun other => decide (dict other = some id) from funext hmet, countP_erase hitem,
    countP_group hb hdict hle, hown, if_pos rfl]

/-- The rack of a global parity holds no data. -/
theorem stored_global {met : Name → Name → Bool} (hr : 1 ≤ r) (hb : 1 ≤ b)
    (hdict : Grouped k r localNode g (dataGroups k r) dict) {node : Name} (hid : dict node = some (dataGroups k r))
    (hmet : ∀ other : Name, met node other = decide (other.head? = some 'D')) {v : Option Nat}
    (h : Stored met (azureRacks k r localNode g (dataGroups k r) b) node v) : v = some (dataRacks k r b) := by
  obtain ⟨item, hitem, hnode, rfl⟩ := h
  have hnone : item.any (fun other => decide (other.head? = some 'D')) = false := by
    obtain ⟨group, hgroup, hpiece⟩ := List.mem_flatMap.mp hitem
    obtain ⟨i, -, rfl⟩ := List.mem_map.mp hgroup
    have hsub : ∀ x ∈ item, x ∈ front k r i ++ back localNode g (dataGroups k r) i := by
      intro x hx
      rw [← flatten_pieces hb (front k r i ++ back localNode g (dataGroups k r) i)]
      exact List.mem_flatten.mpr ⟨item, hpiece, hx⟩
    obtain rfl : i = dataGroups k r := by
      rcases List.mem_append.mp (hsub node hnode) with hmem | hmem
      · exact Option.some.inj ((dict_front hdict hmem).1.symm.trans hid)
      · exact Option.some.inj ((dict_back hdict hmem).1.symm.trans hid)
    apply List.any_eq_false.mpr
    intro x hx
    have hmem := hsub x hx
    rw [front_last hr, List.nil_append] at hmem
    simpa using (dict_back hdict hmem).2
  rw [show met node = fun other => decide (other.head? = some 'D') from funext hmet, countP_erase hitem,
    countP_data hb hdict, hnone, if_neg (by simp), Nat.sub_zero, Finset.sum_range_succ, front_last hr, dataRacks]
  have hzero : racksFor ([] : List Name).length b = 0 := Nat.div_eq_of_lt (by simp; omega)
  rw [hzero, Nat.add_zero]
  congr 1
  exact Finset.sum_congr rfl (fun i _ => by rw [length_front hr])

end Values

section Placements

variable {meets : Name → Name → Except Raise Bool} {met : Name → Name → Bool}

/-- The costs of any placement of the blocks. -/
theorem placementCost_ok (hk : 1 ≤ k)
    (hmeets : ∀ node ∈ (azureOrigins k localNode g).map name, ∀ other ∈ (azureOrigins k localNode g).map name,
      meets node other = .ok (met node other))
    {rank : List (List Name)} (hperm : rank.flatten.Perm ((azureOrigins k localNode g).map name)) :
    ∃ f : Name → Nat, placementCost meets k ((azureOrigins k localNode g).map name) rank =
        .ok (((∑ s ∈ Finset.range k, f (nodeId 'D' s) : Nat) : Rat) / k,
          (((∑ s ∈ Finset.range k, f (nodeId 'D' s)) + (∑ l ∈ Finset.range localNode, f (nodeId 'L' l)) +
            ∑ j ∈ Finset.range g, f (nodeId 'G' j) : Nat) : Rat) / k) ∧
      ∀ node ∈ (azureOrigins k localNode g).map name, Stored met rank node (some (f node)) := by
  obtain ⟨cost, hcost, hstored⟩ := @azureCost_ok meets met rank
    (fun node hnode other hother => hmeets node (hperm.mem_iff.mp hnode) other (hperm.mem_iff.mp hother))
  have hsome : ∀ node ∈ (azureOrigins k localNode g).map name, cost node = some ((cost node).getD 0) := by
    intro node hnode
    obtain ⟨item, -, -, hv⟩ := hstored node (hperm.mem_iff.mpr hnode)
    rw [hv]
    rfl
  refine ⟨fun node => (cost node).getD 0, placementCost_eq hk hcost hsome, fun node hnode => ?_⟩
  have h := hstored node (hperm.mem_iff.mpr hnode)
  rwa [hsome node hnode] at h

/-- No placement repairs a block from its group with fewer racks than the group fills. -/
theorem racksFor_le_stored (hb : 1 ≤ b) (hdict : Grouped k r localNode g globalGroup dict) {rank : List (List Name)}
    (hperm : rank.flatten.Perm ((azureOrigins k localNode g).map name)) (hcap : ∀ rack ∈ rank, rack.length ≤ b)
    {node : Name} {id v : Nat} (hid : dict node = some id)
    (hmet : ∀ other, met node other = decide (dict other = some id)) (h : Stored met rank node (some v)) :
    racksFor (azureSize k r localNode g globalGroup id) b - 1 ≤ v := by
  obtain ⟨item, hitem, hnode, hv⟩ := h
  have hown : item.any (fun other => decide (dict other = some id)) = true :=
    List.any_eq_true.mpr ⟨node, hnode, decide_eq_true hid⟩
  rw [show met node = fun other => decide (dict other = some id) from funext hmet, countP_erase hitem, hown,
    if_pos rfl] at hv
  have hcount := racksFor_le_countP hb hcap (fun other => decide (dict other = some id))
  rw [hperm.countP_eq, List.countP_eq_length_filter, filter_names hdict] at hcount
  rw [Option.some.inj hv]
  exact Nat.sub_le_sub_right hcount 1

end Placements

section Results

theorem div_le_div {a a' : Nat} (k : Nat) (h : a ≤ a') : (a : Rat) / k ≤ (a' : Rat) / k :=
  div_le_div_of_nonneg_right (Nat.cast_le.mpr h) (Nat.cast_nonneg k)

variable (hk : 1 ≤ k) (hr : 1 ≤ r)
include hr

theorem exists_dictLRC (g : Nat) (hdata : k ≤ 100) (hlocal : dataGroups k r ≤ 10) :
    ∃ dict, ((azureOrigins k (dataGroups k r) g).map name).foldlM (assignLRC r (dataGroups k r)) (fun _ => none) =
      .ok dict ∧ Grouped k r (dataGroups k r) g (dataGroups k r) dict := by
  apply foldlM_names
  intro dict o ho
  have hmem := (mem_azureOrigins o).mp ho
  apply assignLRC_name hr
  · rintro i rfl
    exact lt_of_lt_of_le hmem hdata
  · rintro i rfl
    exact lt_of_lt_of_le hmem hlocal

include hk

/-- The costs of the racks of `azure_LRC`. -/
theorem placementCost_LRC (hdict : Grouped k r (dataGroups k r) g (dataGroups k r) dict) (hb : 1 ≤ b) :
    placementCost (meetsLRC dict) k ((azureOrigins k (dataGroups k r) g).map name)
      (azureRacks k r (dataGroups k r) g (dataGroups k r) b) =
      .ok ((dataCost k r b : Rat) / k, ((dataCost k r b + parityCost k r b + g * dataRacks k r b : Nat) : Rat) / k) := by
  obtain ⟨f, hcost, hstored⟩ := placementCost_ok hk (fun node hnode other hother => meetsLRC_eq hdict hnode hother)
    (perm_azureRacks hb hdict hr rfl (Nat.le_succ _))
  have hmem : ∀ o ∈ azureOrigins k (dataGroups k r) g, name o ∈ (azureOrigins k (dataGroups k r) g).map name :=
    fun o ho => List.mem_map_of_mem ho
  have hf : ∀ s < k, f (nodeId 'D' s) = blockCost k r b (s / r) := by
    intro s hs
    have ho := data_mem (dataGroups k r) g hs
    have hlt := lt_dataGroups hr hs
    have h := stored_group hb hdict (hdict _ ho) hlt.le (fun other => by
      rw [metLRC, if_neg (by simp [name, nodeId]), hdict _ ho]) (hstored _ (hmem _ ho))
    rw [azureGroupOf, azureSize_eq hr hlt, if_neg hlt.ne] at h
    exact Option.some.inj h
  have hl : ∀ l < dataGroups k r, f (nodeId 'L' l) = blockCost k r b l := by
    intro l hl
    have ho := localParity_mem k g hl
    have h := stored_group hb hdict (hdict _ ho) hl.le (fun other => by
      rw [metLRC, if_neg (by simp [name, nodeId]), hdict _ ho]) (hstored _ (hmem _ ho))
    rw [azureGroupOf, azureSize_eq hr hl, if_neg hl.ne] at h
    exact Option.some.inj h
  have hg : ∀ j < g, f (nodeId 'G' j) = dataRacks k r b := by
    intro j hj
    have ho := global_mem k (dataGroups k r) hj
    exact Option.some.inj (stored_global hr hb hdict (hdict _ ho) (fun other => by
      rw [metLRC, if_pos (by simp [name, nodeId])]) (hstored _ (hmem _ ho)))
  rw [hcost, Finset.sum_congr rfl (fun s hs => hf s (Finset.mem_range.mp hs)),
    Finset.sum_congr rfl (fun l h => hl l (Finset.mem_range.mp h)),
    Finset.sum_congr rfl (fun j h => hg j (Finset.mem_range.mp h)), Finset.sum_const, Finset.card_range, smul_eq_mul]
  rfl

/-- What `azure_LRC` returns, in closed form: the costs of a placement in which no rack holds more
blocks than the code can lose. No such placement has a smaller `DRC`. -/
theorem azureLRC_optimal (g : Nat) (hdata : k ≤ 100) (hlocal : dataGroups k r ≤ 10) :
    ∃ dict rank, (azureStable (k + dataGroups k r + g) k (dataGroups k r)).foldlM (assignLRC r (dataGroups k r))
        (fun _ => none) = .ok dict ∧
      rank.flatten.Perm (azureStable (k + dataGroups k r + g) k (dataGroups k r)) ∧
      (∀ rack ∈ rank, rack.length ≤ g + 1) ∧
      azureLRC (k + dataGroups k r + g) k r =
        placementCost (meetsLRC dict) k (azureStable (k + dataGroups k r + g) k (dataGroups k r)) rank ∧
      azureLRC (k + dataGroups k r + g) k r = .ok ((dataCost k r (g + 1) : Rat) / k,
        ((dataCost k r (g + 1) + parityCost k r (g + 1) + g * dataRacks k r (g + 1) : Nat) : Rat) / k) ∧
      ∀ other : List (List Name), other.flatten.Perm (azureStable (k + dataGroups k r + g) k (dataGroups k r)) →
        (∀ rack ∈ other, rack.length ≤ g + 1) →
        ∃ drc nrc, placementCost (meetsLRC dict) k (azureStable (k + dataGroups k r + g) k (dataGroups k r)) other =
          .ok (drc, nrc) ∧ (dataCost k r (g + 1) : Rat) / k ≤ drc := by
  have hstable : azureStable (k + dataGroups k r + g) k (dataGroups k r) =
      (azureOrigins k (dataGroups k r) g).map name := by
    rw [azureStable_eq, show k + dataGroups k r + g - dataGroups k r - k = g by omega]
  obtain ⟨dict, hfold, hdict⟩ := exists_dictLRC hr g hdata hlocal
  have hb : 1 ≤ g + 1 := Nat.le_add_left 1 g
  have hcost := placementCost_LRC hk hr hdict hb
  have hrun : azureLRC (k + dataGroups k r + g) k r =
      placementCost (meetsLRC dict) k ((azureOrigins k (dataGroups k r) g).map name)
        (azureRacks k r (dataGroups k r) g (dataGroups k r) (g + 1)) := by
    have hcap : ((k + dataGroups k r + g : Nat) : Int) - k - (dataGroups k r : Nat) + 1 = (g + 1 : Nat) := by omega
    rw [azureLRC, ceilQuotient_eq hr]
    simp only [ok_bind]
    rw [hstable, hfold]
    simp only [ok_bind]
    rw [rankGroup_azure hr hdict rfl (Nat.le_succ _), hcap]
    simp only [ok_bind]
    rw [azureRank_eq hb, ok_bind]
    rfl
  refine ⟨dict, azureRacks k r (dataGroups k r) g (dataGroups k r) (g + 1), ?_⟩
  rw [hstable]
  refine ⟨hfold, perm_azureRacks hb hdict hr rfl (Nat.le_succ _), fun rack hrack => ?_, hrun, hrun.trans hcost,
    fun other hperm hcap => ?_⟩
  · obtain ⟨group, -, hpiece⟩ := List.mem_flatMap.mp hrack
    exact length_le_of_mem_pieces hpiece
  · obtain ⟨f, hok, hstored⟩ := placementCost_ok hk (fun node hnode other hother => meetsLRC_eq hdict hnode hother) hperm
    refine ⟨_, _, hok, div_le_div k (Finset.sum_le_sum (fun s hs => ?_))⟩
    have ho := data_mem (dataGroups k r) g (Finset.mem_range.mp hs)
    have hlt := lt_dataGroups hr (Finset.mem_range.mp hs)
    have h := racksFor_le_stored hb hdict hperm hcap (hdict _ ho) (fun other => by
      rw [metLRC, if_neg (by simp [name, nodeId]), hdict _ ho]) (hstored _ (List.mem_map_of_mem ho))
    rwa [azureGroupOf, azureSize_eq hr hlt, if_neg hlt.ne] at h

omit hk in
theorem exists_dictLRC1 (g : Nat) (hdata : k ≤ 100) (hlocal : dataGroups k r + 1 ≤ 100) :
    ∃ dict, ((azureOrigins k (dataGroups k r + 1) g).map name).foldlM (assignLRC1 r (dataGroups k r)) (fun _ => none) =
      .ok dict ∧ Grouped k r (dataGroups k r + 1) g (dataGroups k r) dict := by
  apply foldlM_names
  intro dict o ho
  have hmem := (mem_azureOrigins o).mp ho
  apply assignLRC1_name hr
  · rintro i rfl
    exact lt_of_lt_of_le hmem hdata
  · rintro i rfl
    exact lt_of_lt_of_le hmem hlocal

omit hk in
/-- The costs that `azure_LRC_1` counts, for the racks it computes and for any others. -/
theorem blockCost_le (hdict : Grouped k r (dataGroups k r + 1) g (dataGroups k r) dict) {rank : List (List Name)}
    (hperm : rank.flatten.Perm ((azureOrigins k (dataGroups k r + 1) g).map name))
    (hcap : ∀ rack ∈ rank, rack.length ≤ g + 1) {o : Origin} (ho : o ∈ azureOrigins k (dataGroups k r + 1) g)
    (hlt : azureGroupOf r (dataGroups k r) o < dataGroups k r) {v : Nat}
    (h : Stored (metLRC1 dict) rank (name o) (some v)) :
    blockCost k r (g + 1) (azureGroupOf r (dataGroups k r) o) ≤ v := by
  have hle := racksFor_le_stored (Nat.le_add_left 1 g) hdict hperm hcap (hdict o ho) (fun other => by
    rw [metLRC1, hdict o ho]) h
  rwa [azureSize_eq hr (Nat.lt_succ_of_lt hlt), if_neg hlt.ne] at hle

/-- The costs of the racks of `azure_LRC_1`: the global parities share a rack with their own parity. -/
theorem placementCost_LRC1 (hdict : Grouped k r (dataGroups k r + 1) g (dataGroups k r) dict) :
    placementCost (meetsLRC1 dict) k ((azureOrigins k (dataGroups k r + 1) g).map name)
      (azureRacks k r (dataGroups k r + 1) g (dataGroups k r) (g + 1)) =
      .ok ((dataCost k r (g + 1) : Rat) / k, ((dataCost k r (g + 1) + parityCost k r (g + 1) : Nat) : Rat) / k) := by
  have hb : 1 ≤ g + 1 := Nat.le_add_left 1 g
  obtain ⟨f, hcost, hstored⟩ := placementCost_ok hk (fun node hnode other hother => meetsLRC1_eq hdict hnode hother)
    (perm_azureRacks hb hdict hr rfl le_rfl)
  have hvalue : ∀ o ∈ azureOrigins k (dataGroups k r + 1) g, azureGroupOf r (dataGroups k r) o ≤ dataGroups k r →
      f (name o) = racksFor (azureSize k r (dataGroups k r + 1) g (dataGroups k r) (azureGroupOf r (dataGroups k r) o))
        (g + 1) - 1 := by
    intro o ho hle
    exact Option.some.inj (stored_group hb hdict (hdict o ho) hle (fun other => by rw [metLRC1, hdict o ho])
      (hstored _ (List.mem_map_of_mem ho)))
  have hlow : ∀ o ∈ azureOrigins k (dataGroups k r + 1) g, ∀ i < dataGroups k r,
      azureGroupOf r (dataGroups k r) o = i → f (name o) = blockCost k r (g + 1) i := by
    intro o ho i hlt hi
    rw [hvalue o ho (by omega), hi, azureSize_eq hr (Nat.lt_succ_of_lt hlt), if_neg hlt.ne]
    rfl
  have hlast : ∀ o ∈ azureOrigins k (dataGroups k r + 1) g, azureGroupOf r (dataGroups k r) o = dataGroups k r →
      f (name o) = 0 := by
    intro o ho hi
    have hempty := @length_front k r hr (dataGroups k r)
    rw [front_last hr] at hempty
    rw [hvalue o ho hi.le, hi, azureSize_eq hr (Nat.lt_succ_self _), if_pos rfl, ← hempty,
      racksFor_one (by omega) (by simp; omega)]
  have hf : ∀ s < k, f (nodeId 'D' s) = blockCost k r (g + 1) (s / r) := fun s hs =>
    hlow (.data s) (data_mem _ _ hs) _ (lt_dataGroups hr hs) rfl
  have hl : ∀ l < dataGroups k r, f (nodeId 'L' l) = blockCost k r (g + 1) l := fun l hl =>
    hlow (.localParity l) (localParity_mem _ _ (Nat.lt_succ_of_lt hl)) l hl rfl
  have hL : f (nodeId 'L' (dataGroups k r)) = 0 :=
    hlast (.localParity (dataGroups k r)) (localParity_mem _ _ (Nat.lt_succ_self _)) rfl
  have hg : ∀ j < g, f (nodeId 'G' j) = 0 := fun j hj => hlast (.global j) (global_mem _ _ hj) rfl
  rw [hcost, Finset.sum_congr rfl (fun s hs => hf s (Finset.mem_range.mp hs)), Finset.sum_range_succ, hL,
    Finset.sum_congr rfl (fun l h => hl l (Finset.mem_range.mp h)),
    Finset.sum_congr rfl (fun j h => hg j (Finset.mem_range.mp h)), Finset.sum_const_zero, Nat.add_zero]
  rfl

/-- What `azure_LRC_1` returns, in closed form: the costs of a placement in which no rack holds more
blocks than the code can lose. No such placement has a smaller `DRC` or a smaller `NRC`. -/
theorem azureLRC1_optimal (hg : 1 ≤ g) (hdata : k ≤ 100) (hlocal : dataGroups k r + 1 ≤ 100) :
    ∃ dict rank, (azureStable (k + (dataGroups k r + 1) + g) k (dataGroups k r + 1)).foldlM
        (assignLRC1 r (dataGroups k r)) (fun _ => none) = .ok dict ∧
      rank.flatten.Perm (azureStable (k + (dataGroups k r + 1) + g) k (dataGroups k r + 1)) ∧
      (∀ rack ∈ rank, rack.length ≤ g + 1) ∧
      (azureLRC1 (k + (dataGroups k r + 1) + g) k r =
        some <$> placementCost (meetsLRC1 dict) k (azureStable (k + (dataGroups k r + 1) + g) k (dataGroups k r + 1)) rank) ∧
      azureLRC1 (k + (dataGroups k r + 1) + g) k r = .ok (some ((dataCost k r (g + 1) : Rat) / k,
        ((dataCost k r (g + 1) + parityCost k r (g + 1) : Nat) : Rat) / k)) ∧
      ∀ other : List (List Name),
        other.flatten.Perm (azureStable (k + (dataGroups k r + 1) + g) k (dataGroups k r + 1)) →
        (∀ rack ∈ other, rack.length ≤ g + 1) →
        ∃ drc nrc, placementCost (meetsLRC1 dict) k
            (azureStable (k + (dataGroups k r + 1) + g) k (dataGroups k r + 1)) other = .ok (drc, nrc) ∧
          (dataCost k r (g + 1) : Rat) / k ≤ drc ∧
          ((dataCost k r (g + 1) + parityCost k r (g + 1) : Nat) : Rat) / k ≤ nrc := by
  have hstable : azureStable (k + (dataGroups k r + 1) + g) k (dataGroups k r + 1) =
      (azureOrigins k (dataGroups k r + 1) g).map name := by
    rw [azureStable_eq, show k + (dataGroups k r + 1) + g - (dataGroups k r + 1) - k = g by omega]
  obtain ⟨dict, hfold, hdict⟩ := exists_dictLRC1 hr g hdata hlocal
  have hb : 1 ≤ g + 1 := Nat.le_add_left 1 g
  have hcost := placementCost_LRC1 hk hr hdict
  have hrun : azureLRC1 (k + (dataGroups k r + 1) + g) k r =
      some <$> placementCost (meetsLRC1 dict) k ((azureOrigins k (dataGroups k r + 1) g).map name)
        (azureRacks k r (dataGroups k r + 1) g (dataGroups k r) (g + 1)) := by
    have hcap : ((k + (dataGroups k r + 1) + g : Nat) : Int) - k - (dataGroups k r : Nat) = (g + 1 : Nat) := by omega
    have hglobal : ¬ ((k + (dataGroups k r + 1) + g : Nat) : Int) - ((dataGroups k r : Nat) + 1) - k < 1 := by omega
    rw [azureLRC1, ceilQuotient_eq hr]
    simp only [ok_bind]
    rw [if_neg hglobal, hstable, hfold]
    simp only [ok_bind]
    rw [rankGroup_azure hr hdict rfl le_rfl, hcap]
    simp only [ok_bind]
    rw [azureRank_eq hb, ok_bind]
    rfl
  refine ⟨dict, azureRacks k r (dataGroups k r + 1) g (dataGroups k r) (g + 1), ?_⟩
  rw [hstable]
  refine ⟨hfold, perm_azureRacks hb hdict hr rfl le_rfl, fun rack hrack => ?_, hrun, ?_, fun other hperm hcap => ?_⟩
  · obtain ⟨group, -, hpiece⟩ := List.mem_flatMap.mp hrack
    exact length_le_of_mem_pieces hpiece
  · rw [hrun, hcost]
    rfl
  · obtain ⟨f, hok, hstored⟩ := placementCost_ok hk (fun node hnode other hother => meetsLRC1_eq hdict hnode hother)
      hperm
    have hdata : dataCost k r (g + 1) ≤ ∑ s ∈ Finset.range k, f (nodeId 'D' s) := by
      apply Finset.sum_le_sum
      intro s hs
      have ho := data_mem (dataGroups k r + 1) g (Finset.mem_range.mp hs)
      exact blockCost_le hr hdict hperm hcap ho (lt_dataGroups hr (Finset.mem_range.mp hs))
        (hstored _ (List.mem_map_of_mem ho))
    have hparity : parityCost k r (g + 1) ≤ ∑ l ∈ Finset.range (dataGroups k r + 1), f (nodeId 'L' l) := by
      rw [Finset.sum_range_succ]
      apply Nat.le_add_right_of_le
      apply Finset.sum_le_sum
      intro l hl
      have hlt := Finset.mem_range.mp hl
      have ho := localParity_mem k g (Nat.lt_succ_of_lt hlt)
      exact blockCost_le hr hdict hperm hcap ho hlt (hstored _ (List.mem_map_of_mem ho))
    exact ⟨_, _, hok, div_le_div k hdata, div_le_div k (by omega)⟩

end Results

theorem azureLRC_optimal_twelve : azureLRC 12 8 4 = .ok (8 / 8, 18 / 8) := by
  obtain ⟨dict, rank, -, -, -, -, h, -⟩ := @azureLRC_optimal 8 4 (by decide) (by decide) 2 (by decide) (by decide)
  exact h

theorem azureLRC1_optimal_thirteen : azureLRC1 13 8 4 = .ok (some (8 / 8, 10 / 8)) := by
  obtain ⟨dict, rank, -, -, -, -, h, -⟩ :=
    @azureLRC1_optimal 8 4 2 (by decide) (by decide) (by decide) (by decide) (by decide)
  exact h

end OptLrc.AzureCosts
