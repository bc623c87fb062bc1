import OptLrc.RackFile

namespace OptLrc.Loading

open OptLrc.Galois OptLrc.Memory OptLrc.Memcached OptLrc.Rack OptLrc.RackFile

variable {c : Client} {f : File} {core : Nat} {ids : List Nat} {groups : List (List Nat)}

/-- The server of block `i`: the next one of its rack. -/
def blockServer (ids : List Nat) (groups : List (List Nat)) (i : Nat) : Option Nat := do
  let id ← ids[i]?
  let g ← groups[id]?
  g[(ids.take i).count id]?

theorem blockServer_eq {i id s : Nat} {g : List Nat} (hid : ids[i]? = some id) (hg : groups[id]? = some g)
    (hs : g[(ids.take i).count id]? = some s) : blockServer ids groups i = some s := by
  rw [blockServer, hid, Option.bind_eq_bind, Option.bind_some, hg, Option.bind_eq_bind, Option.bind_some, hs]

section Taking

/-- The list of servers of a rack, the first `t` of them in use. -/
def usedCells (keys : List Nat) (t : Nat) : Cells RackServer :=
  (keys.take t).map (fun s => some ⟨s, true⟩) ++ freeCells (keys.drop t)

theorem takeServer_used (used : List Nat) (s : Nat) (rest : Cells RackServer) :
    takeServer (used.map (fun s => some ⟨s, true⟩) ++ some ⟨s, false⟩ :: rest) =
      .ok (some (s, used.map (fun s => some ⟨s, true⟩) ++ some ⟨s, true⟩ :: rest)) := by
  induction used with
  | nil => rfl
  | cons u used ih =>
    rw [List.map_cons, List.cons_append, takeServer, if_pos rfl, ih]
    rfl

theorem takeServer_usedCells {keys : List Nat} {t s : Nat} (h : keys[t]? = some s) :
    takeServer (usedCells keys t) = .ok (some (s, usedCells keys (t + 1))) := by
  obtain ⟨ht, rfl⟩ := List.getElem?_eq_some_iff.mp h
  have hdrop : freeCells (keys.drop t) = some ⟨keys[t], false⟩ :: freeCells (keys.drop (t + 1)) := by
    rw [List.drop_eq_getElem_cons ht]
    rfl
  have htake : keys.take (t + 1) = keys.take t ++ [keys[t]] := by
    rw [List.take_add_one, List.getElem?_eq_getElem ht]
    rfl
  rw [usedCells, hdrop, takeServer_used, usedCells, htake, List.map_append, List.append_assoc]
  rfl

theorem serverKeys_usedCells (keys : List Nat) (t : Nat) :
    (usedCells keys t).map (Option.map RackServer.serverKey) = keys.map some := by
  have hmap : (usedCells keys t).map (Option.map RackServer.serverKey) =
      (keys.take t).map some ++ (keys.drop t).map some := by
    simp [usedCells, freeCells, Function.comp_def]
  rw [hmap, ← List.map_append, List.take_append_drop]

end Taking

section Counting

variable {i id : Nat}

theorem count_take_succ (h : ids[i]? = some id) (j : Nat) :
    (ids.take (i + 1)).count j = (ids.take i).count j + if id = j then 1 else 0 := by
  rw [List.take_add_one, h, Option.toList_some, List.count_append, List.count_singleton]
  simp

theorem count_take_mono (ids : List Nat) {m m' : Nat} (h : m ≤ m') (j : Nat) :
    (ids.take m).count j ≤ (ids.take m').count j :=
  (List.take_sublist_take_left h).count_le j

theorem count_take_lt (h : ids[i]? = some id) : (ids.take i).count id < ids.count id := by
  have hsucc := count_take_succ h id
  rw [if_pos rfl] at hsucc
  have hle := (List.take_sublist (i + 1) ids).count_le id
  omega

end Counting

/-- The client after `i` turns of the loop behind `add_rack`. -/
def assigned (c : Client) (core : Nat) (ids : List Nat) (groups : List (List Nat)) (i : Nat) : Client :=
  { racksAdded c core ids groups with
    nodeRack := overwrite (ids.map some) c.nodeRack i
    node2rack := overwrite ((List.range ids.length).map (blockServer ids groups))
      (racksAdded c core ids groups).node2rack i
    rackGroup := groups.mapIdx (fun j g => some (usedCells g ((ids.take i).count j))) ++
      Cells.new (maxNodes - groups.length) }

theorem assigned_zero : assigned c core ids groups 0 = racksAdded c core ids groups := by
  have hgroup : groups.mapIdx (fun j g => some (usedCells g ((ids.take 0).count j))) =
      groups.map (fun g => some (freeCells g)) := by
    apply List.ext_getElem?
    intro j
    simp [usedCells]
  rw [assigned, hgroup, overwrite_zero, overwrite_zero]
  rfl

section Assigning

variable {i : Nat} (h : WellFormed c f core ids groups)
include h

/-- Each block has a server left in its rack. -/
theorem WellFormed.block {id : Nat} (hid : ids[i]? = some id) :
    ∃ g s, groups[id]? = some g ∧ g[(ids.take i).count id]? = some s := by
  have hlt : id < groups.length := h.id_lt id (List.mem_of_getElem? hid)
  have hroom := h.room id groups[id] (List.getElem?_eq_getElem hlt)
  have hcount := count_take_lt hid
  exact ⟨groups[id], _, List.getElem?_eq_getElem hlt, List.getElem?_eq_getElem (by omega)⟩

theorem ids_le : ids.length ≤ maxNodes := by
  rw [h.ids_length]
  exact h.small

theorem length_racksAdded : (racksAdded c core ids groups).node2rack.length = maxNodes := by
  have hle := ids_le h
  rw [racksAdded, length_overwrite (by simp) (by simpa [h.node2rack] using hle), h.node2rack]

omit h in
theorem read_id {id : Nat} (hid : ids[i]? = some id) : (assigned c core ids groups i).node2rack.read i = .ok id := by
  have hi : i < ids.length := (List.getElem?_eq_some_iff.mp hid).1
  apply Cells.read_eq
  rw [assigned, getElem?_overwrite_ge le_rfl (by simp; omega), racksAdded, getElem?_overwrite_lt hi (by simp)]
  simp [hid]

omit h in
theorem read_rack {id : Nat} {g : List Nat} (hg : groups[id]? = some g) :
    (assigned c core ids groups i).rackGroup.read id = .ok (usedCells g ((ids.take i).count id)) := by
  have hlt : id < groups.length := (List.getElem?_eq_some_iff.mp hg).1
  apply Cells.read_eq
  rw [assigned, List.getElem?_append_left (by simpa using hlt), List.getElem?_mapIdx, hg]
  rfl

theorem write_id {id : Nat} (hid : ids[i]? = some id) : (assigned c core ids groups i).nodeRack.write i id =
    .ok (assigned c core ids groups (i + 1)).nodeRack := by
  have hi : i < ids.length := (List.getElem?_eq_some_iff.mp hid).1
  have hlen : (ids.map some).length ≤ c.nodeRack.length := by
    rw [List.length_map, h.nodeRack]
    exact ids_le h
  rw [assigned, Cells.write_eq _ (by rw [length_overwrite (by simp; omega) hlen]; simp at hlen; omega),
    set_overwrite (by simp [hid]) hlen]
  rfl

theorem write_server {s : Nat} (hi : i < ids.length) (hs : blockServer ids groups i = some s) :
    (assigned c core ids groups i).node2rack.write i s = .ok (assigned c core ids groups (i + 1)).node2rack := by
  have hlen : ((List.range ids.length).map (blockServer ids groups)).length ≤
      (racksAdded c core ids groups).node2rack.length := by
    rw [List.length_map, List.length_range, length_racksAdded h]
    exact ids_le h
  have hbound := length_overwrite (m := i) (by simp; omega) hlen
  rw [List.length_map, List.length_range] at hlen
  rw [assigned, Cells.write_eq _ (by rw [hbound]; omega), set_overwrite (by simp [hi, hs]) (by simpa using hlen)]
  rfl

omit h in
theorem write_rack {id : Nat} {g : List Nat} (hid : ids[i]? = some id) (hg : groups[id]? = some g) :
    (assigned c core ids groups i).rackGroup.write id (usedCells g ((ids.take i).count id + 1)) =
      .ok (assigned c core ids groups (i + 1)).rackGroup := by
  have hlt : id < groups.length := (List.getElem?_eq_some_iff.mp hg).1
  rw [assigned, Cells.write_eq _ (by simp; omega), assigned]
  congr 1
  rw [List.set_append_left _ _ (by simpa using hlt)]
  congr 1
  apply List.ext_getElem?
  intro j
  rw [List.getElem?_mapIdx, count_take_succ hid]
  by_cases hj : id = j
  · subst hj
    rw [List.getElem?_set_self (by simpa using hlt), hg, if_pos rfl]
    rfl
  · rw [List.getElem?_set_ne hj, List.getElem?_mapIdx, if_neg hj]
    rfl

/-- One turn gives block `i` the next server of its rack. -/
theorem assignNode_assigned (hi : i < ids.length) :
    assignNode (assigned c core ids groups i) i = .ok (assigned c core ids groups (i + 1)) := by
  obtain ⟨id, hid⟩ : ∃ id, ids[i]? = some id := ⟨ids[i], List.getElem?_eq_getElem hi⟩
  obtain ⟨g, s, hg, hs⟩ := WellFormed.block h hid
  have hserver := blockServer_eq hid hg hs
  simp only [assignNode, read_id hid, read_rack hg, write_id h hid, takeServer_usedCells hs, write_server h hi hserver,
    write_rack hid hg, ok_bind, pure_eq_ok]
  rfl

theorem assignNodes_eq (hi : i ≤ ids.length) :
    (List.range i).foldlM assignNode (racksAdded c core ids groups) = .ok (assigned c core ids groups i) := by
  induction i with
  | zero =>
    rw [assigned_zero]
    rfl
  | succ i ih =>
    rw [List.range_succ, List.foldlM_append, ih (by omega), ok_bind, List.foldlM_cons,
      assignNode_assigned h (by omega)]
    rfl

/-- The placement is loaded when every host fits, and the buffers overflow when one does not. -/
theorem WellFormed.loadRacks :
    (Short f → loadRacks c = .ok (assigned c core ids groups ids.length)) ∧
    (¬ Short f → loadRacks c = .error .outOfBounds) := by
  obtain ⟨hok, hlong⟩ := h.addRack
  have hload : Rack.loadRacks c = addRack c >>= fun c => (List.range c.numberOfN).foldlM assignNode c := by
    rw [Rack.loadRacks, if_neg (by rw [h.notAdded]; exact Bool.false_ne_true)]
  constructor
  · intro hshort
    have hn : (racksAdded c core ids groups).numberOfN = ids.length := h.ids_length.symm
    rw [hload, hok hshort, ok_bind, hn]
    exact assignNodes_eq h le_rfl
  · intro hshort
    rw [hload, hlong hshort]
    rfl

end Assigning

/-- The placement that a rack file asks for. -/
structure Loaded (d : Client) (core : Nat) (ids : List Nat) (groups : List (List Nat)) : Prop where
  core : d.networkCoreServerKey = core
  racks : ∀ j g, groups[j]? = some g → ∃ cells, d.rackGroup.read j = .ok cells ∧
    cells.map (Option.map RackServer.serverKey) = g.map some
  nodeRack : ∀ i id, ids[i]? = some id → d.nodeRack.read i = .ok id
  node2rack : ∀ i id, ids[i]? = some id → ∃ g s, groups[id]? = some g ∧
    g[(ids.take i).count id]? = some s ∧ d.node2rack.read i = .ok s
  injective : ∀ i < ids.length, ∀ j < ids.length, d.node2rack.read i = d.node2rack.read j → i = j

/-- Servers that are listed once tell the rack and the place in it. -/
theorem flatten_inj (hnodup : groups.flatten.Nodup) {a b t u s : Nat} {g g' : List Nat} (hg : groups[a]? = some g)
    (hg' : groups[b]? = some g') (hs : g[t]? = some s) (hs' : g'[u]? = some s) : a = b ∧ t = u := by
  obtain ⟨hin, hdis⟩ := List.nodup_flatten.mp hnodup
  have hab : a = b := by
    by_contra hne
    have hpair : ∀ i j : Nat, i < j → ∀ g g', groups[i]? = some g → groups[j]? = some g' → List.Disjoint g g' := by
      intro i j hij g g' hi hj
      obtain ⟨hi', rfl⟩ := List.getElem?_eq_some_iff.mp hi
      obtain ⟨hj', rfl⟩ := List.getElem?_eq_some_iff.mp hj
      exact List.pairwise_iff_getElem.mp hdis i j hi' hj' hij
    rcases Nat.lt_or_gt_of_ne hne with hlt | hlt
    · exact hpair a b hlt g g' hg hg' (List.mem_of_getElem? hs) (List.mem_of_getElem? hs')
    · exact hpair b a hlt g' g hg' hg (List.mem_of_getElem? hs') (List.mem_of_getElem? hs)
  subst hab
  cases hg.symm.trans hg'
  obtain ⟨ht, hst⟩ := List.getElem?_eq_some_iff.mp hs
  obtain ⟨hu, hsu⟩ := List.getElem?_eq_some_iff.mp hs'
  exact ⟨rfl, (List.Nodup.getElem_inj_iff (hin g (List.mem_of_getElem? hg))).mp (hst.trans hsu.symm)⟩

/-- Two blocks of one rack are not the same number of blocks into it. -/
theorem count_take_inj {i j id : Nat} (hi : ids[i]? = some id) (hj : ids[j]? = some id)
    (h : (ids.take i).count id = (ids.take j).count id) : i = j := by
  have hlt : ∀ i j, i < j → ids[i]? = some id → (ids.take i).count id < (ids.take j).count id := by
    intro i j hij hi
    have hsucc := count_take_succ hi id
    rw [if_pos rfl] at hsucc
    have hmono : (ids.take (i + 1)).count id ≤ (ids.take j).count id := count_take_mono ids hij id
    omega
  rcases Nat.lt_trichotomy i j with hij | hij | hij
  · have := hlt i j hij hi
    omega
  · exact hij
  · have := hlt j i hij hj
    omega

theorem loaded_assigned (h : WellFormed c f core ids groups) :
    Loaded (assigned c core ids groups ids.length) core ids groups := by
  have hnode : ∀ i id, ids[i]? = some id → ∃ g s, groups[id]? = some g ∧ g[(ids.take i).count id]? = some s ∧
      (assigned c core ids groups ids.length).node2rack.read i = .ok s := by
    intro i id hid
    obtain ⟨g, s, hg, hs⟩ := WellFormed.block h hid
    have hi : i < ids.length := (List.getElem?_eq_some_iff.mp hid).1
    refine ⟨g, s, hg, hs, Cells.read_eq ?_⟩
    rw [assigned, getElem?_overwrite_lt hi (by simp), List.getElem?_map, List.getElem?_range hi, Option.map_some,
      blockServer_eq hid hg hs]
  constructor
  · rfl
  · intro j g hg
    exact ⟨_, read_rack hg, serverKeys_usedCells _ _⟩
  · intro i id hid
    have hi : i < ids.length := (List.getElem?_eq_some_iff.mp hid).1
    apply Cells.read_eq
    rw [assigned, getElem?_overwrite_lt hi (by simp)]
    simp [hid]
  · exact hnode
  · intro i hi j hj heq
    obtain ⟨g, s, hg, hs, hread⟩ := hnode i ids[i] (List.getElem?_eq_getElem hi)
    obtain ⟨g', s', hg', hs', hread'⟩ := hnode j ids[j] (List.getElem?_eq_getElem hj)
    have hss : s = s' := Except.ok.inj (hread.symm.trans (heq.trans hread'))
    subst hss
    obtain ⟨hid, hcount⟩ := flatten_inj h.nodup hg hg' hs hs'
    refine count_take_inj (List.getElem?_eq_getElem hi) (by rw [hid]; exact List.getElem?_eq_getElem hj) ?_
    rw [hcount, hid]

end OptLrc.Loading
