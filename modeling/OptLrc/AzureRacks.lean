import OptLrc.Azure

namespace OptLrc.AzureRacks

open OptLrc.Memory OptLrc.Distance OptLrc.Layout OptLrc.Placement OptLrc.Simulator OptLrc.Groups OptLrc.Capacity
open OptLrc.Azure

variable {α : Type}

/-- The number of racks that some blocks need, when a rack holds `b`. -/
def racksFor (size b : Nat) : Nat := (size + b - 1) / b

/-- A group that fits stays whole. -/
def pieces (b : Nat) (xs : List α) : List (List α) := if xs.length ≤ b then [xs] else slices b xs

theorem racksFor_one {b size : Nat} (hpos : 1 ≤ size) (hle : size ≤ b) : racksFor size b = 1 :=
  Nat.div_eq_of_lt_le (by omega) (by omega)

theorem length_le_of_mem_pieces {b : Nat} {xs piece : List α} (h : piece ∈ pieces b xs) : piece.length ≤ b := by
  unfold pieces at h
  by_cases hlen : xs.length ≤ b
  · rw [if_pos hlen, List.mem_singleton] at h
    rwa [h]
  · rw [if_neg hlen] at h
    exact length_le_of_mem_slices h

section Counting

variable {b : Nat} (hb : 1 ≤ b)
include hb

theorem lt_racksFor (size j : Nat) : j < racksFor size b ↔ j * b < size := by
  rw [racksFor, Nat.lt_iff_add_one_le, Nat.le_div_iff_mul_le hb, Nat.add_mul]
  omega

theorem racksFor_mono {size size' : Nat} (h : size ≤ size') : racksFor size b ≤ racksFor size' b :=
  Nat.div_le_div_right (by omega)

theorem countP_lt_range (size q : Nat) :
    (List.range q).countP (fun j => decide (j * b < size)) = min q (racksFor size b) := by
  induction q with
  | zero => simp
  | succ q ih =>
    have hq := lt_racksFor hb size q
    rw [List.range_succ, List.countP_append, ih, List.countP_singleton]
    by_cases h : q * b < size
    · rw [if_pos (decide_eq_true h)]
      have := hq.mpr h
      omega
    · rw [if_neg (by simpa using h)]
      have := mt hq.mp h
      omega

/-- The slices that hold some of the blocks in front. -/
theorem any_slice {ds ls : List α} {p : α → Bool} (hd : ∀ x ∈ ds, p x = true) (hl : ∀ x ∈ ls, p x = false) (j : Nat) :
    (((ds ++ ls).drop (j * b)).take b).any p = decide (j * b < ds.length) := by
  by_cases h : j * b < ds.length
  · rw [decide_eq_true h, List.any_eq_true, List.drop_append_of_le_length h.le]
    obtain ⟨x, hx⟩ : ∃ x, (ds.drop (j * b))[0]? = some x :=
      ⟨_, List.getElem?_eq_getElem (by simpa using h)⟩
    refine ⟨x, ?_, hd x (List.mem_of_mem_drop (List.mem_of_getElem? hx))⟩
    apply List.mem_of_getElem? (i := 0)
    rw [List.getElem?_take_of_lt hb, List.getElem?_append_left (by simpa using h), hx]
  · rw [decide_eq_false h, List.any_eq_false]
    intro x hx
    have hmem := List.mem_of_mem_take hx
    rw [List.drop_append, List.drop_of_length_le (by omega), List.nil_append] at hmem
    simp [hl x (List.mem_of_mem_drop hmem)]

/-- The pieces of a group that hold some of the blocks in its front. -/
theorem countP_pieces {ds ls : List α} {p : α → Bool} (hd : ∀ x ∈ ds, p x = true) (hl : ∀ x ∈ ls, p x = false) :
    (pieces b (ds ++ ls)).countP (fun rack => rack.any p) = racksFor ds.length b := by
  unfold pieces
  by_cases h : (ds ++ ls).length ≤ b
  · have hrest : ls.any p = false := List.any_eq_false.mpr (fun x hx => by simp [hl x hx])
    rw [if_pos h, List.countP_singleton, List.any_append, hrest, Bool.or_false]
    rw [List.length_append] at h
    cases ds with
    | nil =>
      rw [List.any_nil, if_neg (by simp)]
      exact (Nat.div_eq_of_lt (by simp; omega)).symm
    | cons x ds =>
      rw [List.any_cons, hd x List.mem_cons_self, Bool.true_or, if_pos rfl]
      exact (racksFor_one (by simp) (by omega)).symm
  · rw [if_neg h, slices, List.countP_map]
    have hfun : (fun rack => rack.any p) ∘ (fun j => ((ds ++ ls).drop (j * b)).take b) =
        fun j => decide (j * b < ds.length) := funext (any_slice hb hd hl)
    rw [hfun, countP_lt_range hb, min_eq_right]
    exact racksFor_mono hb (by simp)

theorem flatten_pieces (xs : List α) : (pieces b xs).flatten = xs := by
  unfold pieces
  by_cases h : xs.length ≤ b
  · simp [h]
  · rw [if_neg h, flatten_slices b hb]

end Counting

theorem azureGroup_eq {b : Nat} (hb : 1 ≤ b) (group : List Name) :
    azureGroup b group = .ok (pieces b group) := by
  unfold azureGroup pieces
  by_cases h : group.length ≤ b
  · rw [if_pos h, if_pos (by exact_mod_cast h)]
  · rw [if_neg h, if_neg (by exact_mod_cast h), numCluster, if_neg (by omega), rangeStep_eq _ hb]
    simp only [ok_bind, pure_eq_ok, Int.toNat_natCast, slices, List.map_map]
    rfl

theorem azureRank_eq {b : Nat} (hb : 1 ≤ b) (groups : List (List Name)) :
    azureRank b groups = .ok (groups.flatMap (pieces b)) := by
  have hrun : ∀ (groups rank : List (List Name)), groups.foldlM (fun rank group => do
      return rank ++ (← azureGroup b group)) rank = (.ok (rank ++ groups.flatMap (pieces b)) : Except Raise _) := by
    intro groups
    induction groups with
    | nil => simp
    | cons group groups ih =>
      intro rank
      rw [List.foldlM_cons, azureGroup_eq hb, ok_bind, pure_eq_ok, ok_bind, ih, List.flatMap_cons, List.append_assoc]
  rw [azureRank, hrun, List.nil_append]

section Cost

variable {meets : Name → Name → Except Raise Bool} {met : Name → Name → Bool} {rank : List (List Name)}

theorem anyM_ok {f : Name → Except Raise Bool} {g : Name → Bool} (nodes : List Name)
    (h : ∀ node ∈ nodes, f node = .ok (g node)) : nodes.anyM f = .ok (nodes.any g) := by
  induction nodes with
  | nil => rfl
  | cons node nodes ih =>
    rw [List.anyM, h node List.mem_cons_self, ok_bind, List.any_cons]
    cases g node with
    | true => rfl
    | false => exact ih (fun x hx => h x (List.mem_cons_of_mem _ hx))

theorem azureNodeCost_eq {node : Name} (hmeets : ∀ other ∈ rank.flatten, meets node other = .ok (met node other))
    (item : List Name) :
    azureNodeCost meets rank item node = .ok ((rank.erase item).countP (fun other => other.any (met node))) := by
  have hrun : ∀ (racks : List (List Name)) (m : Nat), (∀ rack ∈ racks, rack ∈ rank) →
      racks.foldlM (fun cost other => return if ← other.anyM (meets node) then cost + 1 else cost) m =
        (.ok (m + racks.countP (fun other => other.any (met node))) : Except Raise Nat) := by
    intro racks
    induction racks with
    | nil => simp
    | cons rack racks ih =>
      intro m hsub
      have hrack : rack.anyM (meets node) = .ok (rack.any (met node)) := anyM_ok rack (fun other hother =>
        hmeets other (List.mem_flatten.mpr ⟨rack, hsub rack List.mem_cons_self, hother⟩))
      rw [List.foldlM_cons, hrack, ok_bind, pure_eq_ok, ok_bind, ih _ (fun x hx => hsub x (List.mem_cons_of_mem _ hx)),
        List.countP_cons]
      split <;> simp only [Except.ok.injEq] <;> omega
  rw [azureNodeCost, hrun _ _ (fun rack hrack => List.mem_of_mem_erase hrack), Nat.zero_add]

/-- What the cost loop may have stored for a node. -/
def Stored (met : Name → Name → Bool) (rank : List (List Name)) (node : Name) (v : Option Nat) : Prop :=
  ∃ item ∈ rank, node ∈ item ∧ v = some ((rank.erase item).countP (fun other => other.any (met node)))

theorem azureCost_ok
    (hmeets : ∀ node ∈ rank.flatten, ∀ other ∈ rank.flatten, meets node other = .ok (met node other)) :
    ∃ cost, azureCost meets rank = .ok cost ∧ ∀ node ∈ rank.flatten, Stored met rank node (cost node) := by
  have hitem : ∀ item ∈ rank, ∀ (nodes : List Name) (cost : Dict), (∀ node ∈ nodes, node ∈ item) →
      ∃ cost', nodes.foldlM (fun cost node =>
          return Function.update cost node (some (← azureNodeCost meets rank item node))) cost = Except.ok cost' ∧
        ∀ node, (node ∈ nodes ∨ Stored met rank node (cost node)) → Stored met rank node (cost' node) := by
    intro item hmem nodes
    induction nodes with
    | nil => exact fun cost _ => ⟨cost, rfl, fun node h => h.resolve_left (by simp)⟩
    | cons x nodes ih =>
      intro cost hsub
      obtain ⟨cost', hfold, hcost⟩ := ih (Function.update cost x
        (some ((rank.erase item).countP (fun other => other.any (met x)))))
        (fun node hnode => hsub node (List.mem_cons_of_mem _ hnode))
      refine ⟨cost', ?_, fun node hnode => hcost node ?_⟩
      · have hx := hmeets x (List.mem_flatten.mpr ⟨item, hmem, hsub x List.mem_cons_self⟩)
        rw [List.foldlM_cons, azureNodeCost_eq hx, ok_bind, pure_eq_ok, ok_bind, hfold]
      · by_cases hx : node = x
        · subst hx
          exact .inr ⟨item, hmem, hsub node List.mem_cons_self, Function.update_self _ _ _⟩
        · rw [Function.update_of_ne hx]
          exact hnode.imp_left (fun h => (List.mem_cons.mp h).resolve_left hx)
  have hrun : ∀ (racks : List (List Name)) (cost : Dict), (∀ item ∈ racks, item ∈ rank) →
      ∃ cost', racks.foldlM (fun cost item => item.foldlM (fun cost node =>
          return Function.update cost node (some (← azureNodeCost meets rank item node))) cost) cost =
          Except.ok cost' ∧
        ∀ node, (node ∈ racks.flatten ∨ Stored met rank node (cost node)) → Stored met rank node (cost' node) := by
    intro racks
    induction racks with
    | nil => exact fun cost _ => ⟨cost, rfl, fun node h => h.resolve_left (by simp)⟩
    | cons item racks ih =>
      intro cost hsub
      obtain ⟨cost₁, hfold₁, hcost₁⟩ := hitem item (hsub item List.mem_cons_self) item cost (fun node hnode => hnode)
      obtain ⟨cost₂, hfold₂, hcost₂⟩ := ih cost₁ (fun x hx => hsub x (List.mem_cons_of_mem _ hx))
      refine ⟨cost₂, ?_, fun node hnode => hcost₂ node ?_⟩
      · rw [List.foldlM_cons, hfold₁, ok_bind, hfold₂]
      · rw [List.flatten_cons, List.mem_append, or_assoc] at hnode
        rcases hnode with h | h | h
        · exact .inr (hcost₁ node (.inl h))
        · exact .inl h
        · exact .inr (hcost₁ node (.inr h))
  obtain ⟨cost, hfold, hcost⟩ := hrun rank (fun _ => none) (fun _ h => h)
  exact ⟨cost, hfold, fun node hnode => hcost node (.inl hnode)⟩

theorem countP_erase {p : List Name → Bool} {item : List Name} (hitem : item ∈ rank) :
    (rank.erase item).countP p = rank.countP p - if p item then 1 else 0 := by
  rw [(List.perm_cons_erase hitem).countP_eq, List.countP_cons, Nat.add_sub_cancel]

theorem costSum_eq {cost : Dict} {f : Name → Nat} (counted : Name → Bool) (nodes : List Name)
    (h : ∀ node ∈ nodes, counted node = true → cost node = some (f node)) :
    costSum cost counted nodes = .ok ((nodes.filter counted).map f).sum := by
  have hrun : ∀ (rest : List Name) (sum : Nat), (∀ node ∈ rest, counted node = true → cost node = some (f node)) →
      rest.foldlM (fun sum node => if counted node then return sum + (← lookup cost node) else return sum) sum =
        (.ok (sum + ((rest.filter counted).map f).sum) : Except Raise Nat) := by
    intro rest
    induction rest with
    | nil => simp
    | cons node rest ih =>
      intro sum hrest
      have hnext := fun sum => ih sum (fun x hx => hrest x (List.mem_cons_of_mem _ hx))
      rw [List.foldlM_cons]
      cases hc : counted node with
      | true =>
        rw [if_pos rfl, lookup, hrest node List.mem_cons_self hc, ok_bind, pure_eq_ok, ok_bind, hnext,
          List.filter_cons_of_pos hc, List.map_cons, List.sum_cons, Nat.add_assoc]
      | false =>
        rw [if_neg (by simp), pure_eq_ok, ok_bind, hnext, List.filter_cons_of_neg (by simp [hc])]
  rw [costSum, hrun nodes 0 h, Nat.zero_add]

end Cost

section Dictionary

/-- The groups with data. -/
def dataGroups (k r : Nat) : Nat := (k + r - 1) / r

theorem ceilQuotient_eq {k r : Nat} (hr : 1 ≤ r) : ceilQuotient k r = .ok (dataGroups k r) := by
  rw [ceilQuotient, if_neg (by omega), ceilDiv_eq k r hr, Int.toNat_natCast]
  rfl

def azureOrigins (k localNode g : Nat) : List Origin :=
  (List.range k).map .data ++ (List.range localNode).map .localParity ++ (List.range g).map .global

theorem azureStable_eq (n k localNode : Nat) :
    azureStable n k localNode = (azureOrigins k localNode (n - localNode - k)).map name := by
  simp only [azureStable, azureOrigins, List.map_append, List.map_map]
  rfl

theorem mem_azureOrigins {k localNode g : Nat} (o : Origin) : o ∈ azureOrigins k localNode g ↔ match o with
    | .data i => i < k
    | .global j => j < g
    | .localParity i => i < localNode := by
  cases o <;> simp [azureOrigins]

theorem data_mem {k s : Nat} (localNode g : Nat) (h : s < k) : .data s ∈ azureOrigins k localNode g :=
  (mem_azureOrigins _).mpr h

theorem localParity_mem {localNode l : Nat} (k g : Nat) (h : l < localNode) :
    .localParity l ∈ azureOrigins k localNode g :=
  (mem_azureOrigins _).mpr h

theorem global_mem {g j : Nat} (k localNode : Nat) (h : j < g) : .global j ∈ azureOrigins k localNode g :=
  (mem_azureOrigins _).mpr h

/-- The group of a block when the digits that are read tell its index. -/
def azureGroupOf (r globalGroup : Nat) : Origin → Nat
  | .data i => i / r
  | .localParity i => i
  | .global _ => globalGroup

theorem assignAzure_name {localIndex : Name → Except Raise Nat} {r : Nat} (hr : 1 ≤ r) (globalGroup : Nat) (dict : Dict)
    (o : Origin) (hdata : ∀ i, o = .data i → i < 100)
    (hlocal : ∀ i, o = .localParity i → localIndex (nodeId 'L' i) = .ok i) :
    assignAzure localIndex r globalGroup dict (name o) =
      .ok (Function.update dict (name o) (some (azureGroupOf r globalGroup o))) := by
  have hdiv : ∀ a, floorDiv a r = .ok (a / r) := fun a => if_neg (by omega)
  cases o with
  | data i => simp [assignAzure, name, azureGroupOf, hdiv, ourDataIndex_nodeId, leading_of_lt (hdata i rfl)]
  | global j => simp [assignAzure, name, azureGroupOf]
  | localParity i => simp [assignAzure, name, azureGroupOf, hlocal i rfl]

theorem assignLRC_name {r : Nat} (hr : 1 ≤ r) (globalGroup : Nat) (dict : Dict) (o : Origin)
    (hdata : ∀ i, o = .data i → i < 100) (hlocal : ∀ i, o = .localParity i → i < 10) :
    assignLRC r globalGroup dict (name o) =
      .ok (Function.update dict (name o) (some (azureGroupOf r globalGroup o))) := by
  have hindex : ourDataIndex (name o) = .ok (match o with
      | .data i => leading 100 i | .global i => leading 100 i | .localParity i => leading 100 i) := by
    cases o <;> exact ourDataIndex_nodeId _ _
  rw [assignLRC, hindex, ok_bind]
  exact assignAzure_name hr globalGroup dict o hdata (fun i h => by
    rw [randomDataIndex_nodeId, leading_of_lt (hlocal i h)])

theorem assignLRC1_name {r : Nat} (hr : 1 ≤ r) (globalGroup : Nat) (dict : Dict) (o : Origin)
    (hdata : ∀ i, o = .data i → i < 100) (hlocal : ∀ i, o = .localParity i → i < 100) :
    assignLRC1 r globalGroup dict (name o) =
      .ok (Function.update dict (name o) (some (azureGroupOf r globalGroup o))) :=
  assignAzure_name hr globalGroup dict o hdata (fun i h => by
    rw [ourDataIndex_nodeId, leading_of_lt (hlocal i h)])

theorem foldlM_names {turn : Dict → Name → Except Raise Dict} {group : Origin → Nat} (os : List Origin)
    (hturn : ∀ dict, ∀ o ∈ os, turn dict (name o) = .ok (Function.update dict (name o) (some (group o)))) :
    ∃ dict, (os.map name).foldlM turn (fun _ => none) = .ok dict ∧ ∀ o ∈ os, dict (name o) = some (group o) := by
  have hrun : ∀ (rest : List Origin) (dict : Dict), (∀ o ∈ rest, o ∈ os) →
      ∃ dict', (rest.map name).foldlM turn dict = .ok dict' ∧
        ∀ o, o ∈ rest ∨ dict (name o) = some (group o) → dict' (name o) = some (group o) := by
    intro rest
    induction rest with
    | nil => exact fun dict _ => ⟨dict, rfl, fun o h => h.resolve_left (by simp)⟩
    | cons o rest ih =>
      intro dict hsub
      obtain ⟨dict', hfold, hdict⟩ := ih (Function.update dict (name o) (some (group o)))
        (fun x hx => hsub x (List.mem_cons_of_mem _ hx))
      refine ⟨dict', ?_, fun o' h => hdict o' ?_⟩
      · rw [List.map_cons, List.foldlM_cons, hturn dict o (hsub o List.mem_cons_self), ok_bind, hfold]
      · by_cases he : o' = o
        · exact .inr (by rw [he, Function.update_self])
        · rw [Function.update_of_ne (fun hn => he (name_injective hn))]
          exact h.imp_left (fun h => (List.mem_cons.mp h).resolve_left he)
  obtain ⟨dict, hfold, hdict⟩ := hrun os (fun _ => none) (fun _ h => h)
  exact ⟨dict, hfold, fun o ho => hdict o (.inl ho)⟩

/-- Each group has its blocks in the order of the list of all blocks. -/
theorem rankGroup_eq {dict : Dict} {m : Nat} (nodes : List Name) (h : ∀ node ∈ nodes, ∃ id < m, dict node = some id) :
    rankGroup dict m nodes = .ok ((List.range m).map (fun i => nodes.filter (fun node => dict node = some i))) := by
  have hrun : ∀ (rest done : List Name), (∀ node ∈ rest, ∃ id < m, dict node = some id) →
      rest.foldlM (appendNode dict) ((List.range m).map (fun i => done.filter (fun node => dict node = some i))) =
        .ok ((List.range m).map (fun i => (done ++ rest).filter (fun node => dict node = some i))) := by
    intro rest
    induction rest with
    | nil => simp
    | cons node rest ih =>
      intro done hrest
      obtain ⟨id, hid, hdict⟩ := hrest node List.mem_cons_self
      have happend : appendNode dict ((List.range m).map (fun i => done.filter (fun node => dict node = some i))) node =
          .ok ((List.range m).map (fun i => (done ++ [node]).filter (fun node => dict node = some i))) := by
        rw [appendNode, lookup, hdict, ok_bind, List.getElem?_map, List.getElem?_range hid]
        simp only [Option.map_some, pure_eq_ok, Except.ok.injEq]
        apply List.ext_getElem?
        intro i
        rw [List.getElem?_set, List.length_map, List.length_range]
        by_cases hi : id = i
        · subst hi
          rw [if_pos rfl, if_pos hid, List.getElem?_map, List.getElem?_range hid]
          simp [List.filter_append, hdict]
        · rw [if_neg hi, List.getElem?_map, List.getElem?_map]
          by_cases him : i < m
          · rw [List.getElem?_range him]
            simp [List.filter_append, hdict, hi]
          · rw [List.getElem?_eq_none (by simpa using him)]
            rfl
      rw [List.foldlM_cons, happend, ok_bind, ih _ (fun x hx => hrest x (List.mem_cons_of_mem _ hx)),
        List.append_assoc, List.singleton_append]
  have hnil : (List.range m).map (fun i => ([] : List Name).filter (fun node => dict node = some i)) =
      List.replicate m [] := by
    simp
  rw [rankGroup, ← hnil, hrun nodes [] h, List.nil_append]

end Dictionary

section Groups

variable {b : Nat}

theorem countP_groups (hb : 1 ≤ b) {p : Name → Bool} (m : Nat) (front back : Nat → List Name)
    (hfront : ∀ i < m, ∀ x ∈ front i, p x = true) (hback : ∀ i < m, ∀ x ∈ back i, p x = false) :
    (((List.range m).map (fun i => front i ++ back i)).flatMap (pieces b)).countP (fun rack => rack.any p) =
      ∑ i ∈ Finset.range m, racksFor (front i).length b := by
  induction m with
  | zero => rfl
  | succ m ih =>
    rw [List.range_succ, List.map_append, List.flatMap_append, List.countP_append,
      ih (fun i hi => hfront i (by omega)) (fun i hi => hback i (by omega)), List.map_singleton,
      List.flatMap_singleton, countP_pieces hb (hfront m (by omega)) (hback m (by omega)), Finset.sum_range_succ]

theorem flatten_flatMap_pieces (hb : 1 ≤ b) (groups : List (List α)) :
    (groups.flatMap (pieces b)).flatten = groups.flatten := by
  induction groups with
  | nil => rfl
  | cons group groups ih =>
    rw [List.flatMap_cons, List.flatten_append, flatten_pieces hb, ih, List.flatten_cons]

/-- Racks of `b` blocks that hold some of the counted ones, at least as many as these fill. -/
theorem racksFor_le_countP (hb : 1 ≤ b) {rank : List (List α)} (hcap : ∀ rack ∈ rank, rack.length ≤ b)
    (p : α → Bool) : racksFor (rank.flatten.countP p) b ≤ rank.countP (fun rack => rack.any p) := by
  have hle : rank.flatten.countP p ≤ rank.countP (fun rack => rack.any p) * b := by
    induction rank with
    | nil => simp
    | cons rack rank ih =>
      have htail := ih (fun x hx => hcap x (List.mem_cons_of_mem _ hx))
      have hhead : rack.countP p ≤ b := List.countP_le_length.trans (hcap rack List.mem_cons_self)
      rw [List.flatten_cons, List.countP_append, List.countP_cons, Nat.add_mul]
      by_cases hany : rack.any p = true
      · rw [if_pos hany]
        omega
      · have hzero : rack.countP p = 0 :=
          List.countP_eq_zero.mpr (fun x hx hp => hany (List.any_eq_true.mpr ⟨x, hx, hp⟩))
        omega
  rw [racksFor, Nat.div_le_iff_le_mul_add_pred hb, Nat.mul_comm]
  omega

end Groups

/-- The data blocks of group `i`. -/
def front (k r i : Nat) : List Name := ((List.range k).filter (fun s => s / r = i)).map (nodeId 'D')

/-- The parities of group `i`. -/
def back (localNode g globalGroup i : Nat) : List Name :=
  ((List.range localNode).filter (fun l => l = i)).map (nodeId 'L') ++
    if i = globalGroup then (List.range g).map (nodeId 'G') else []

/-- `dict` holds the groups of the blocks. -/
def Grouped (k r localNode g globalGroup : Nat) (dict : Dict) : Prop :=
  ∀ o ∈ azureOrigins k localNode g, dict (name o) = some (azureGroupOf r globalGroup o)

section Grouped

variable {k r localNode g globalGroup : Nat} {dict : Dict}

theorem length_front (hr : 1 ≤ r) (i : Nat) : (front k r i).length = min r (k - i * r) := by
  rw [front, List.length_map, ← List.countP_eq_length_filter]
  exact countP_div_eq hr k i

theorem length_back {i : Nat} (hi : i < localNode) :
    (back localNode g globalGroup i).length = 1 + if i = globalGroup then g else 0 := by
  have hone : (List.range localNode).countP (fun l => l = i) = 1 :=
    List.count_eq_one_of_mem List.nodup_range (List.mem_range.mpr hi)
  rw [back, List.length_append, List.length_map, ← List.countP_eq_length_filter, hone]
  by_cases h : i = globalGroup <;> simp [h]

theorem lt_dataGroups (hr : 1 ≤ r) {s : Nat} (hs : s < k) : s / r < dataGroups k r := by
  rw [Nat.div_lt_iff_lt_mul hr]
  have := (ceil_bounds k r hr).1
  rw [dataGroups]
  omega

theorem dict_front (hdict : Grouped k r localNode g globalGroup dict) {i : Nat} {x : Name} (hx : x ∈ front k r i) :
    dict x = some i ∧ x.head? = some 'D' := by
  obtain ⟨s, hs, rfl⟩ := List.mem_map.mp hx
  rw [List.mem_filter, List.mem_range, decide_eq_true_eq] at hs
  refine ⟨?_, rfl⟩
  rw [← hs.2]
  exact hdict (.data s) (data_mem _ _ hs.1)

theorem dict_back (hdict : Grouped k r localNode g globalGroup dict) {i : Nat} {x : Name}
    (hx : x ∈ back localNode g globalGroup i) : dict x = some i ∧ x.head? ≠ some 'D' := by
  rcases List.mem_append.mp hx with hx | hx
  · obtain ⟨l, hl, rfl⟩ := List.mem_map.mp hx
    rw [List.mem_filter, List.mem_range, decide_eq_true_eq] at hl
    refine ⟨?_, by simp [nodeId]⟩
    rw [← hl.2]
    exact hdict (.localParity l) (localParity_mem _ _ hl.1)
  · by_cases hi : i = globalGroup
    · rw [if_pos hi] at hx
      obtain ⟨j, hj, rfl⟩ := List.mem_map.mp hx
      refine ⟨?_, by simp [nodeId]⟩
      rw [hi]
      exact hdict (.global j) (global_mem _ _ (List.mem_range.mp hj))
    · rw [if_neg hi] at hx
      cases hx

theorem filter_names (hdict : Grouped k r localNode g globalGroup dict) (i : Nat) :
    ((azureOrigins k localNode g).map name).filter (fun node => dict node = some i) =
      front k r i ++ back localNode g globalGroup i := by
  have hkind : ∀ (kind : Nat → Origin) (m : Nat) (p : Nat → Bool),
      (∀ s < m, kind s ∈ azureOrigins k localNode g) → (∀ s, p s = decide (azureGroupOf r globalGroup (kind s) = i)) →
      ((List.range m).map (fun s => name (kind s))).filter (fun node => dict node = some i) =
        ((List.range m).filter p).map (fun s => name (kind s)) := by
    intro kind m p hmem hp
    rw [List.filter_map]
    congr 1
    apply List.filter_congr
    intro s hs
    rw [hp, Function.comp_apply, hdict (kind s) (hmem s (List.mem_range.mp hs))]
    simp
  simp only [azureOrigins, List.map_append, List.map_map, List.filter_append, front, back, List.append_assoc]
  congr 1
  · exact hkind .data k _ (fun s hs => data_mem _ _ hs) (fun s => rfl)
  · congr 1
    · exact hkind .localParity localNode _ (fun s hs => localParity_mem _ _ hs) (fun s => rfl)
    · refine (hkind .global g (fun _ => decide (globalGroup = i)) (fun s hs => global_mem _ _ hs)
        (fun s => rfl)).trans ?_
      by_cases hi : i = globalGroup
      · simp [hi, name]
      · simp [hi, Ne.symm hi]

theorem group_le (hr : 1 ≤ r) (hgroup : globalGroup = dataGroups k r) (hlocal : localNode ≤ globalGroup + 1) {o : Origin}
    (ho : o ∈ azureOrigins k localNode g) : azureGroupOf r globalGroup o < globalGroup + 1 := by
  have hmem := (mem_azureOrigins o).mp ho
  cases o with
  | data s =>
    have := lt_dataGroups hr hmem
    simp only [azureGroupOf]
    omega
  | global j => exact Nat.lt_succ_self _
  | localParity l => exact lt_of_lt_of_le hmem hlocal

theorem rankGroup_azure (hr : 1 ≤ r) (hdict : Grouped k r localNode g globalGroup dict)
    (hgroup : globalGroup = dataGroups k r) (hlocal : localNode ≤ globalGroup + 1) :
    rankGroup dict (globalGroup + 1) ((azureOrigins k localNode g).map name) =
      .ok ((List.range (globalGroup + 1)).map (fun i => front k r i ++ back localNode g globalGroup i)) := by
  rw [rankGroup_eq]
  · congr 1
    exact List.map_congr_left (fun i _ => filter_names hdict i)
  · intro node hnode
    obtain ⟨o, ho, rfl⟩ := List.mem_map.mp hnode
    exact ⟨_, group_le hr hgroup hlocal ho, hdict o ho⟩

/-- The racks that `azure_LRC` and `azure_LRC_1` compute. -/
def azureRacks (k r localNode g globalGroup b : Nat) : List (List Name) :=
  ((List.range (globalGroup + 1)).map (fun i => front k r i ++ back localNode g globalGroup i)).flatMap (pieces b)

/-- The size of group `i`. -/
def azureSize (k r localNode g globalGroup i : Nat) : Nat :=
  (front k r i ++ back localNode g globalGroup i).length

/-- The groups are a partition of the blocks. -/
theorem perm_groups (dict : Dict) (nodes : List Name) (m : Nat) :
    ((List.range m).map (fun i => nodes.filter (fun node => dict node = some i))).flatten.Perm
      (nodes.filter (fun node => (dict node).any (· < m))) := by
  induction m with
  | zero => simp
  | succ m ih =>
    have hlow : (fun node => (dict node).any (· < m) && (dict node).any (· < m + 1)) =
        fun node => (dict node).any (· < m) := by
      funext node
      cases dict node with
      | none => rfl
      | some id =>
        rw [Bool.eq_iff_iff]
        simp
        omega
    have hlast : (fun node => !(dict node).any (· < m) && (dict node).any (· < m + 1)) =
        fun node => decide (dict node = some m) := by
      funext node
      cases dict node with
      | none => rfl
      | some id =>
        rw [Bool.eq_iff_iff]
        simp
        omega
    have hparts := List.filter_append_perm (fun node => (dict node).any (· < m))
      (nodes.filter (fun node => (dict node).any (· < m + 1)))
    rw [List.filter_filter, List.filter_filter, hlow, hlast] at hparts
    rw [List.range_succ, List.map_append, List.flatten_append, List.map_singleton, List.flatten_singleton]
    exact (ih.append_right _).trans hparts

variable {b : Nat} (hb : 1 ≤ b) (hdict : Grouped k r localNode g globalGroup dict)
include hb hdict

theorem perm_azureRacks (hr : 1 ≤ r) (hgroup : globalGroup = dataGroups k r) (hlocal : localNode ≤ globalGroup + 1) :
    (azureRacks k r localNode g globalGroup b).flatten.Perm ((azureOrigins k localNode g).map name) := by
  have hall : ((azureOrigins k localNode g).map name).filter (fun node => (dict node).any (· < globalGroup + 1)) =
      (azureOrigins k localNode g).map name := by
    rw [List.filter_eq_self]
    intro node hnode
    obtain ⟨o, ho, rfl⟩ := List.mem_map.mp hnode
    rw [hdict o ho]
    exact decide_eq_true (group_le hr hgroup hlocal ho)
  rw [azureRacks, flatten_flatMap_pieces hb, List.map_congr_left (fun i _ => (filter_names hdict i).symm)]
  have hperm := perm_groups dict ((azureOrigins k localNode g).map name) (globalGroup + 1)
  rwa [hall] at hperm

/-- The racks with a block of group `id`. -/
theorem countP_group {id : Nat} (hid : id ≤ globalGroup) :
    (azureRacks k r localNode g globalGroup b).countP (fun rack => rack.any (fun other => dict other = some id)) =
      racksFor (azureSize k r localNode g globalGroup id) b := by
  have hvalue : ∀ i, ∀ x ∈ front k r i ++ back localNode g globalGroup i, dict x = some i := by
    intro i x hx
    rcases List.mem_append.mp hx with hx | hx
    · exact (dict_front hdict hx).1
    · exact (dict_back hdict hx).1
  have hsplit : ∀ i, front k r i ++ back localNode g globalGroup i =
      (if i = id then front k r i ++ back localNode g globalGroup i else []) ++
        if i = id then [] else front k r i ++ back localNode g globalGroup i := by
    intro i
    by_cases hi : i = id <;> simp [hi]
  rw [azureRacks, List.map_congr_left (fun i _ => hsplit i), countP_groups hb]
  · rw [Finset.sum_eq_single_of_mem id (Finset.mem_range.mpr (by omega)), if_pos rfl, azureSize]
    intro i _ hi
    rw [if_neg hi]
    exact Nat.div_eq_of_lt (by simp; omega)
  · intro i _ x hx
    by_cases hi : i = id
    · rw [if_pos hi] at hx
      rw [hvalue i x hx, hi, decide_eq_true rfl]
    · rw [if_neg hi] at hx
      cases hx
  · intro i _ x hx
    by_cases hi : i = id
    · rw [if_pos hi] at hx
      cases hx
    · rw [if_neg hi] at hx
      rw [hvalue i x hx]
      simpa using hi

/-- The racks with a data block. -/
theorem countP_data :
    (azureRacks k r localNode g globalGroup b).countP (fun rack => rack.any (fun other => other.head? = some 'D')) =
      ∑ i ∈ Finset.range (globalGroup + 1), racksFor (front k r i).length b := by
  apply countP_groups hb
  · intro i _ x hx
    exact decide_eq_true (dict_front hdict hx).2
  · intro i _ x hx
    exact decide_eq_false (dict_back hdict hx).2

end Grouped

end OptLrc.AzureRacks
