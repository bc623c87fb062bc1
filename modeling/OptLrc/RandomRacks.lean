import OptLrc.Groups

namespace OptLrc.RandomRacks

open OptLrc.Memory OptLrc.Encoder OptLrc.Stripe OptLrc.Distance OptLrc.Layout OptLrc.Simulator OptLrc.Groups

/-- What `randint(1, b + 1)` returns in turn `i`. -/
def drawn (draws : Draws) (b i : Nat) : Nat := 1 + draws.size i % (b + 1)

/-- The blocks that the turns before `i` ask for. -/
def total (draws : Draws) (b i : Nat) : Nat := ∑ j ∈ Finset.range i, drawn draws b j

variable {draws : Draws} {b : Nat}

theorem total_succ (draws : Draws) (b i : Nat) : total draws b (i + 1) = total draws b i + drawn draws b i :=
  Finset.sum_range_succ _ _

theorem drawn_pos (draws : Draws) (b i : Nat) : 1 ≤ drawn draws b i := Nat.le_add_right _ _

theorem drawn_le (draws : Draws) (b i : Nat) : drawn draws b i ≤ b + 1 := by
  have := Nat.mod_lt (draws.size i) (show 0 < b + 1 by omega)
  unfold drawn
  omega

theorem le_total (draws : Draws) (b i : Nat) : i ≤ total draws b i := by
  induction i with
  | zero => exact Nat.zero_le _
  | succ i ih =>
    have := drawn_pos draws b i
    rw [total_succ]
    omega

theorem total_mono (draws : Draws) (b : Nat) : Monotone (total draws b) :=
  monotone_nat_of_le_succ (fun i => by rw [total_succ]; exact Nat.le_add_right _ _)

theorem randint_eq (draws : Draws) (b i : Nat) :
    randint 1 ((b : Int) + 1) (draws.size i) = .ok (drawn draws b i : Nat) := by
  rw [randint, if_neg (by omega), drawn]
  congr 1
  push_cast
  ring_nf

theorem choice_mem {nodes : List Name} (h : nodes ≠ []) (seed : Nat) :
    ∃ node ∈ nodes, choice nodes seed = .ok node := by
  have hlt := Nat.mod_lt seed (List.length_pos_of_ne_nil h)
  refine ⟨nodes[seed % nodes.length], List.getElem_mem hlt, ?_⟩
  rw [choice, List.getElem?_eq_getElem hlt]

/-- The blocks that a rack takes leave the list. -/
theorem takeNodes_eq (draws : Draws) (m : Nat) (rack node : List Name) (picks : Nat) (hm : m ≤ node.length) :
    ∃ rack' node', (List.range m).foldlM (takeNode draws) (rack, node, picks) =
        .ok (rack', node', picks + m) ∧ rack'.length = rack.length + m ∧
      (rack' ++ node').Perm (rack ++ node) := by
  induction m with
  | zero => exact ⟨rack, node, rfl, rfl, List.Perm.refl _⟩
  | succ m ih =>
    obtain ⟨rack', node', hfold, hlen, hperm⟩ := ih (by omega)
    have hne : node' ≠ [] := by
      rintro rfl
      have := hperm.length_eq
      simp only [List.length_append, List.length_nil] at this
      omega
    obtain ⟨x, hx, hchoice⟩ := choice_mem hne (draws.pick (picks + m))
    refine ⟨rack' ++ [x], node'.erase x, ?_, by simp [hlen]; omega, ?_⟩
    · rw [List.range_succ, List.foldlM_append, hfold, ok_bind, List.foldlM_cons, takeNode, hchoice, ok_bind,
        pure_eq_ok, ok_bind, List.foldlM_nil]
      rfl
    · rw [List.append_assoc]
      exact ((List.perm_cons_erase hx).symm.append_left rack').trans hperm

section Loop

variable {n : Nat} {nodes : List Name}

/-- What the turns before `i` leave. -/
structure Turned (draws : Draws) (b : Nat) (nodes : List Name) (i : Nat) (st : Generated) : Prop where
  count : st.count = (total draws b i : Nat)
  sizes : st.rank.map List.length = (List.range i).map (drawn draws b)
  perm : (st.rank.flatten ++ st.node).Perm nodes

/-- What the whole loop leaves, when the turn `m` is its last. -/
structure Ended (draws : Draws) (n b : Nat) (nodes : List Name) (m : Nat) (st : Generated) : Prop where
  before : total draws b m < n
  after : n ≤ total draws b (m + 1)
  count : st.count = n
  sizes : st.rank.map List.length = (List.range m).map (drawn draws b) ++ [n - total draws b m]
  perm : st.rank.flatten.Perm nodes

theorem sum_drawn (draws : Draws) (b i : Nat) : ((List.range i).map (drawn draws b)).sum = total draws b i :=
  rfl

theorem length_node {i : Nat} {st : Generated} (h : Turned draws b nodes i st) :
    total draws b i + st.node.length = nodes.length := by
  rw [← h.perm.length_eq, List.length_append, List.length_flatten, h.sizes, sum_drawn]

/-- One turn: a rack of the drawn size, or of what is left. -/
theorem randomTurn_eq {i : Nat} {st : Generated} (hlen : nodes.length = n) (h : Turned draws b nodes i st)
    (hlt : total draws b i < n) :
    ∃ st', randomTurn draws n b st i = .ok st' ∧
      st'.count = (total draws b i + min (drawn draws b i) (n - total draws b i) : Nat) ∧
      st'.rank.map List.length = (List.range i).map (drawn draws b) ++
        [min (drawn draws b i) (n - total draws b i)] ∧
      (st'.rank.flatten ++ st'.node).Perm nodes := by
  have hnode := length_node h
  have hnumber : (if (n : Int) < st.count + (drawn draws b i : Nat) then n - st.count
      else (drawn draws b i : Nat)) = (min (drawn draws b i) (n - total draws b i) : Nat) := by
    rw [h.count]
    split <;> omega
  obtain ⟨rack, node, hfold, hrack, hperm⟩ := takeNodes_eq draws
    (min (drawn draws b i) (n - total draws b i)) [] st.node st.picks (by omega)
  refine ⟨⟨st.count + (min (drawn draws b i) (n - total draws b i) : Nat), st.rank ++ [rack], node,
    st.picks + min (drawn draws b i) (n - total draws b i)⟩, ?_, ?_, ?_, ?_⟩
  · rw [randomTurn, randint_eq, ok_bind]
    simp only [hnumber, Int.toNat_natCast, hfold, ok_bind, pure_eq_ok]
  · rw [h.count]
    push_cast
    rfl
  · rw [List.map_append, h.sizes, List.map_singleton, hrack, List.length_nil, Nat.zero_add]
  · rw [List.flatten_append, List.flatten_singleton, List.append_assoc]
    exact (hperm.append_left st.rank.flatten).trans h.perm

/-- The loop ends by its break: every turn takes a block at least. -/
theorem randomLoop_eq (hlen : nodes.length = n) (turns i : Nat) (st : Generated) (hturns : i + turns = n)
    (h : Turned draws b nodes i st) (hlt : total draws b i < n) :
    ∃ m st', randomLoop draws n b turns i st = .ok st' ∧ Ended draws n b nodes m st' := by
  induction turns generalizing i st with
  | zero =>
    have := le_total draws b i
    omega
  | succ turns ih =>
    obtain ⟨st', hturn, hcount, hsizes, hperm⟩ := randomTurn_eq hlen h hlt
    have hsucc := total_succ draws b i
    rw [randomLoop, hturn, ok_bind]
    rcases Nat.lt_or_ge (total draws b (i + 1)) n with hmore | hdone
    · have hmin : min (drawn draws b i) (n - total draws b i) = drawn draws b i := by omega
      rw [hmin] at hcount hsizes
      rw [if_neg (by omega)]
      apply ih (i + 1) st' (by omega) ⟨by rw [hcount, hsucc], ?_, hperm⟩ hmore
      rw [hsizes, List.range_succ, List.map_append, List.map_singleton]
    · have hmin : min (drawn draws b i) (n - total draws b i) = n - total draws b i := by omega
      rw [hmin] at hcount hsizes
      rw [if_pos (by omega)]
      refine ⟨i, st', rfl, hlt, hdone, by omega, hsizes, ?_⟩
      have hall : st'.rank.flatten.length = nodes.length := by
        rw [List.length_flatten, hsizes, List.sum_append, sum_drawn, List.sum_singleton]
        omega
      have hnil : st'.node = [] := by
        apply List.eq_nil_of_length_eq_zero
        have := hperm.length_eq
        rw [List.length_append] at this
        omega
      rwa [hnil, List.append_nil] at hperm

end Loop

section Racks

variable {n k r : Nat}

theorem nodup_nodeStable (n k r : Nat) : (nodeStable n k r).Nodup := by
  rw [nodeStable_eq]
  apply List.Nodup.map name_injective
  have hinj : ∀ {f : Nat → Origin}, Function.Injective f → ∀ m, ((List.range m).map f).Nodup :=
    fun hf m => List.nodup_range.map hf
  refine List.Nodup.append (List.Nodup.append (hinj (fun _ _ h => by simpa using h) _)
    (hinj (fun _ _ h => by simpa using h) _) ?_) (hinj (fun _ _ h => by simpa using h) _) ?_
  · intro o ho ho'
    simp only [List.mem_map] at ho ho'
    obtain ⟨i, -, rfl⟩ := ho
    obtain ⟨j, -, h⟩ := ho'
    cases h
  · intro o ho ho'
    simp only [List.mem_append, List.mem_map] at ho ho'
    obtain ⟨j, -, rfl⟩ := ho'
    rcases ho with ⟨i, -, h⟩ | ⟨i, -, h⟩ <;> cases h

theorem length_nodeStable (hv : Valid n k r) : (nodeStable n k r).length = n := by
  simp only [nodeStable_eq, origins, List.length_map, List.length_append, List.length_range]
  exact (blocks_eq hv).symm

/-- `b`, the capacity of a rack. -/
def capacity (n k r : Nat) : Nat := globalNumber n k r + globalNumber n k r / r + 1

theorem cal_eq_capacity (hv : Valid n k r) : cal n k r - 1 = (capacity n k r : Nat) := by
  rw [cal_eq hv, capacity]
  push_cast
  ring

/-- The racks are a placement of the blocks within the capacity `b`. -/
structure ValidRacks (n k r : Nat) (st : Generated) : Prop where
  nonempty : ∀ rack ∈ st.rank, rack ≠ []
  nodup : st.rank.flatten.Nodup
  blocks : ∀ node, node ∈ st.rank.flatten ↔ node ∈ nodeStable n k r
  length : st.rank.flatten.length = n
  count : st.count = n
  within : ∀ rack ∈ st.rank, (rack.length : Int) ≤ cal n k r - 1

theorem exists_ended (hv : Valid n k r) (draws : Draws) :
    ∃ m st, randomRacks draws n k r = .ok st ∧ Ended draws n (capacity n k r) (nodeStable n k r) m st := by
  have hn := hv.k_pos
  have hfits := hv.fits
  rw [randomRacks, cal_eq_capacity hv]
  apply randomLoop_eq (length_nodeStable hv) n 0 _ (by omega) ⟨rfl, rfl, List.Perm.refl _⟩
  rw [total, Finset.range_zero, Finset.sum_empty]
  omega

/-- The sizes of the racks, one by one. -/
theorem forall_length_iff {m : Nat} {nodes : List Name} {st : Generated} (h : Ended draws n b nodes m st)
    (P : Nat → Prop) : (∀ rack ∈ st.rank, P rack.length) ↔
      (∀ i < m, P (drawn draws b i)) ∧ P (n - total draws b m) := by
  have hmap : (∀ rack ∈ st.rank, P rack.length) ↔ ∀ size ∈ st.rank.map List.length, P size := by
    simp
  rw [hmap, h.sizes]
  simp only [List.mem_append, List.mem_map, List.mem_range, List.mem_singleton]
  constructor
  · intro h
    exact ⟨fun i hi => h _ (.inl ⟨i, hi, rfl⟩), h _ (.inr rfl)⟩
  · rintro ⟨h1, h2⟩ size (⟨i, hi, rfl⟩ | rfl)
    · exact h1 i hi
    · exact h2

/-- The racks are within the capacity exactly when no draw of `b + 1`, one more than the
capacity, finds that many blocks left. The rest holds whatever is drawn. -/
theorem validRacks_iff (hv : Valid n k r) (draws : Draws) :
    (∃ st, randomRacks draws n k r = .ok st ∧ ValidRacks n k r st) ↔
      ∀ i, drawn draws (capacity n k r) i = capacity n k r + 1 →
        n - total draws (capacity n k r) i ≤ capacity n k r := by
  obtain ⟨m, st, hrun, h⟩ := exists_ended hv draws
  have hsucc := total_succ draws (capacity n k r)
  have hle := drawn_le draws (capacity n k r)
  constructor
  · rintro ⟨st', hrun', hvalid⟩ i hi
    obtain rfl : st = st' := Except.ok.inj (hrun.symm.trans hrun')
    have hwithin := (forall_length_iff h (fun size => (size : Int) ≤ cal n k r - 1)).mp hvalid.within
    rw [cal_eq_capacity hv] at hwithin
    rcases Nat.lt_trichotomy i m with him | rfl | him
    · have := hwithin.1 i him
      omega
    · have := hwithin.2
      omega
    · have := total_mono draws (capacity n k r) (show m + 1 ≤ i by omega)
      have := h.after
      omega
  · intro hdraws
    refine ⟨st, hrun, ?_, h.perm.nodup_iff.mpr (nodup_nodeStable n k r), fun node => h.perm.mem_iff,
      h.perm.length_eq.trans (length_nodeStable hv), h.count, ?_⟩
    · intro rack hrack
      have hpos := (forall_length_iff h (fun size => 0 < size)).mpr
        ⟨fun i _ => drawn_pos draws _ i, Nat.sub_pos_of_lt h.before⟩ rack hrack
      exact List.ne_nil_of_length_pos hpos
    · rw [forall_length_iff h (fun size => (size : Int) ≤ cal n k r - 1), cal_eq_capacity hv]
      have hbefore := h.before
      have hafter := h.after
      rw [hsucc] at hafter
      refine ⟨fun i hi => ?_, ?_⟩
      · -- A rack before the last leaves at least one block.
        have hmono := total_mono draws (capacity n k r) (show i + 1 ≤ m by omega)
        rw [hsucc] at hmono
        have := hdraws i
        have := hle i
        omega
      · have := hdraws m
        have := hle m
        omega

theorem validRacks_iff_six : ∃ st, randomRacks ⟨fun _ => 0, fun _ => 0⟩ 6 3 2 = .ok st ∧ ValidRacks 6 3 2 st :=
  (validRacks_iff ⟨by decide, by decide, by decide⟩ ⟨fun _ => 0, fun _ => 0⟩).mpr
    (fun _ (h : 1 = 3) => absurd h (by decide))

/-- `randint(1, 3)` draws `3` and fills a rack of three, with a capacity of two. -/
theorem not_validRacks_six :
    ¬ ∃ st, randomRacks ⟨fun _ => 2, fun _ => 0⟩ 6 3 2 = .ok st ∧ ValidRacks 6 3 2 st := by
  rintro ⟨st, hrun, hvalid⟩
  have hsizes : (randomRacks ⟨fun _ => 2, fun _ => 0⟩ 6 3 2).map (fun st => st.rank.map List.length) =
      .ok [3, 3] := by decide +kernel
  rw [hrun] at hsizes
  have hlist : st.rank.map List.length = [3, 3] := Except.ok.inj hsizes
  have hmem : 3 ∈ st.rank.map List.length := by
    rw [hlist]
    decide
  obtain ⟨rack, hrack, hlen⟩ := List.mem_map.mp hmem
  have := hvalid.within rack hrack
  rw [hlen] at this
  exact absurd this (by decide)

theorem capacity_lt (hv : Valid n k r) : capacity n k r < n := by
  have hk := hv.k_pos
  have hsrc := sources_eq hv
  have hgroup := (lt_groupCount (n := n) hv.r_pos (globalNumber n k r) (by omega)).1
  unfold capacity
  omega

/-- No code is safe from the draws: the first rack can hold one block more than `b`. -/
theorem exists_overfull (hv : Valid n k r) : ∃ draws : Draws,
    ¬ ∃ st, randomRacks draws n k r = .ok st ∧ ValidRacks n k r st := by
  obtain ⟨m, st, hrun, h⟩ := exists_ended hv ⟨fun _ => capacity n k r, fun _ => 0⟩
  have hdrawn : ∀ i, drawn ⟨fun _ => capacity n k r, fun _ => 0⟩ (capacity n k r) i = capacity n k r + 1 := by
    intro i
    rw [drawn, Nat.mod_eq_of_lt (Nat.lt_succ_self _), Nat.add_comm]
  refine ⟨⟨fun _ => capacity n k r, fun _ => 0⟩, ?_⟩
  rintro ⟨st', hrun', hvalid⟩
  obtain rfl : st = st' := Except.ok.inj (hrun.symm.trans hrun')
  have hwithin := (forall_length_iff h (fun size => (size : Int) ≤ cal n k r - 1)).mp hvalid.within
  rw [cal_eq_capacity hv] at hwithin
  rcases Nat.eq_zero_or_pos m with rfl | hm
  · have hlt := capacity_lt hv
    have := hwithin.2
    rw [total, Finset.range_zero, Finset.sum_empty] at this
    omega
  · have := hwithin.1 0 hm
    rw [hdrawn] at this
    omega

end Racks

end OptLrc.RandomRacks
