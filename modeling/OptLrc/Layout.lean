import OptLrc.Decode
import Mathlib.Data.List.Sort

namespace OptLrc.Layout

open OptLrc.Galois OptLrc.Memory OptLrc.Jerasure OptLrc.Encoder OptLrc.Stripe

/-- Where the group loop takes the block of a position from. -/
inductive Origin
  | data (index : Nat)
  | global (index : Nat)
  | localParity (group : Nat)
  deriving DecidableEq, Repr

/-- `all_blocks` with the assignments made so far. -/
abbrev Traced := Cells Block × List (Nat × Origin)

def assign (all : Traced) (p : Nat) (block : Block) (origin : Origin) : Except Fault Traced := do
  return (← all.1.write p block, all.2 ++ [(p, origin)])

/-- The group loop with its assignments to `all_blocks` recorded. -/
def tracedSource (k r i : Nat) (dataPtrs globalPtrs : Cells Block) (st : Cells Block × Traced) (ii : Nat) :
    Except Fault (Cells Block × Traced) := do
  let index := i * r + ii
  let p ← if index < k then dataPtrs.read index else globalPtrs.read (index - k)
  let origin : Origin := if index < k then .data index else .global (index - k)
  return (← st.1.write ii p, ← assign st.2 (i * (r + 1) + ii) p origin)

def tracedGroup (V : CodingMatrix) (k r i blockSize : Nat) (dataPtrs globalPtrs : Cells Block) (all : Traced)
    (count parityPos : Nat) : Except Fault Traced := do
  let st ← (List.range count).foldlM (tracedSource k r i dataPtrs globalPtrs) (Cells.new count, all)
  let coding ← calculateParityPtrsRs V st.1 count (Cells.filled 1 (zeroBlock blockSize)) 1 blockSize
  assign st.2 parityPos (← coding.read 0) (.localParity i)

def tracedStep (V : CodingMatrix) (n k r blockSize : Nat) (dataPtrs globalPtrs : Cells Block)
    (st : Nat × Traced) (i : Nat) : Except Fault (Nat × Traced) := do
  if r ≤ st.1 then
    return (st.1 - r, ← tracedGroup V k r i blockSize dataPtrs globalPtrs st.2 r (i * (r + 1) + r))
  else
    return (st.1, ← tracedGroup V k r i blockSize dataPtrs globalPtrs st.2 st.1 (n - 1))

def tracedLoop (V : CodingMatrix) (n k r blockSize : Nat) (dataPtrs globalPtrs : Cells Block) :
    Except Fault Traced := do
  let st ← (List.range (localGroupNumber n r)).foldlM (tracedStep V n k r blockSize dataPtrs globalPtrs)
    (k + globalNumber n k r, (Cells.filled n (zeroBlock blockSize), []))
  return st.2

section Erase

variable {α β γ : Type}

theorem map_bind (x : Except Fault α) (f : α → Except Fault β) (g : β → γ) :
    g <$> (x >>= f) = x >>= fun a => g <$> f a := by
  cases x <;> rfl

/-- A loop commutes with forgetting a part of its state when each of its turns does. -/
theorem foldlM_forget {f : α → γ → Except Fault α} {g : β → γ → Except Fault β} (forget : α → β)
    (h : ∀ st a, forget <$> f st a = g (forget st) a) (l : List γ) (st : α) :
    forget <$> l.foldlM f st = l.foldlM g (forget st) := by
  induction l generalizing st with
  | nil => rfl
  | cons a l ih =>
    rw [List.foldlM_cons, List.foldlM_cons, map_bind, ← h]
    cases f st a with
    | error e => rfl
    | ok st' => exact ih st'

end Erase

section Trace

variable {V : CodingMatrix} {n k r blockSize : Nat} {dataPtrs globalPtrs : Cells Block}

theorem assign_forget (all : Traced) (p : Nat) (block : Block) (origin : Origin) :
    Prod.fst <$> assign all p block origin = all.1.write p block := by
  unfold assign
  cases all.1.write p block <;> rfl

theorem tracedSource_forget (i : Nat) (st : Cells Block × Traced) (ii : Nat) :
    (Prod.map id Prod.fst) <$> tracedSource k r i dataPtrs globalPtrs st ii =
      placeSource k r i dataPtrs globalPtrs (Prod.map id Prod.fst st) ii := by
  have hput : ∀ p origin, (Prod.map id Prod.fst) <$> (do
      return (← st.1.write ii p, ← assign st.2 (i * (r + 1) + ii) p origin) : Except Fault _) =
      (do return (← st.1.write ii p, ← st.2.1.write (i * (r + 1) + ii) p) : Except Fault _) := by
    intro p origin
    rw [← assign_forget _ _ _ origin]
    cases st.1.write ii p with
    | error e => rfl
    | ok group =>
      rw [ok_bind, ok_bind]
      cases assign st.2 (i * (r + 1) + ii) p origin <;> rfl
  simp only [tracedSource, placeSource, Prod.map_fst, Prod.map_snd, id]
  split
  · cases dataPtrs.read (i * r + ii) with
    | error e => rfl
    | ok p => exact hput p _
  · cases globalPtrs.read (i * r + ii - k) with
    | error e => rfl
    | ok p => exact hput p _

theorem tracedGroup_forget (i : Nat) (all : Traced) (count parityPos : Nat) :
    Prod.fst <$> tracedGroup V k r i blockSize dataPtrs globalPtrs all count parityPos =
      placeGroup V k r i blockSize dataPtrs globalPtrs all.1 count parityPos := by
  have hfold : Prod.map id Prod.fst <$>
      (List.range count).foldlM (tracedSource k r i dataPtrs globalPtrs) (Cells.new count, all) =
      (List.range count).foldlM (placeSource k r i dataPtrs globalPtrs) (Cells.new count, all.1) :=
    foldlM_forget (Prod.map id Prod.fst) (tracedSource_forget i) _ _
  unfold tracedGroup placeGroup
  rw [← hfold]
  cases (List.range count).foldlM (tracedSource k r i dataPtrs globalPtrs) (Cells.new count, all) with
  | error e => rfl
  | ok st =>
    rw [map_bind]
    simp only [ok_bind, map_bind, assign_forget]
    rfl

theorem tracedStep_forget (st : Nat × Traced) (i : Nat) :
    (Prod.map id Prod.fst) <$> tracedStep V n k r blockSize dataPtrs globalPtrs st i =
      groupStep V n k r blockSize dataPtrs globalPtrs (Prod.map id Prod.fst st) i := by
  unfold tracedStep groupStep
  simp only [Prod.map_fst, Prod.map_snd, id, ← tracedGroup_forget]
  split
  · cases tracedGroup V k r i blockSize dataPtrs globalPtrs st.2 r (i * (r + 1) + r) <;> rfl
  · cases tracedGroup V k r i blockSize dataPtrs globalPtrs st.2 st.1 (n - 1) <;> rfl

/-- Recording the assignments does not change what the loop computes. -/
theorem tracedLoop_forget : Prod.fst <$> tracedLoop V n k r blockSize dataPtrs globalPtrs =
    groupLoop V n k r blockSize dataPtrs globalPtrs := by
  have hfold : Prod.map id Prod.fst <$>
      (List.range (localGroupNumber n r)).foldlM (tracedStep V n k r blockSize dataPtrs globalPtrs)
        (k + globalNumber n k r, (Cells.filled n (zeroBlock blockSize), [])) =
      (List.range (localGroupNumber n r)).foldlM (groupStep V n k r blockSize dataPtrs globalPtrs)
        (k + globalNumber n k r, Cells.filled n (zeroBlock blockSize)) :=
    foldlM_forget (Prod.map id Prod.fst) tracedStep_forget _ _
  unfold tracedLoop groupLoop
  rw [← hfold]
  cases (List.range (localGroupNumber n r)).foldlM (tracedStep V n k r blockSize dataPtrs globalPtrs)
    (k + globalNumber n k r, (Cells.filled n (zeroBlock blockSize), [])) <;> rfl

/-- The origin that the layout gives to position `p`. -/
def origin (n k r p : Nat) : Origin :=
  if IsParity n r p then .localParity (p / (r + 1))
  else if p / (r + 1) * r + p % (r + 1) < k then .data (p / (r + 1) * r + p % (r + 1))
  else .global (p / (r + 1) * r + p % (r + 1) - k)

def entry (n k r p : Nat) : Nat × Origin := (p, origin n k r p)

theorem assign_log {all all' : Traced} {p : Nat} {block : Block} {o : Origin}
    (h : assign all p block o = .ok all') : all'.2 = all.2 ++ [(p, o)] := by
  obtain ⟨cells, -, h⟩ := bind_eq_ok.mp h
  cases h
  rfl

theorem tracedSource_log {i ii : Nat} {st st' : Cells Block × Traced}
    (h : tracedSource k r i dataPtrs globalPtrs st ii = .ok st') :
    st'.2.2 = st.2.2 ++ [(i * (r + 1) + ii,
      if i * r + ii < k then .data (i * r + ii) else .global (i * r + ii - k))] := by
  have hput : ∀ p o, (do
      return (← st.1.write ii p, ← assign st.2 (i * (r + 1) + ii) p o) : Except Fault _) = .ok st' →
      st'.2.2 = st.2.2 ++ [(i * (r + 1) + ii, o)] := by
    intro p o h
    obtain ⟨group, -, h⟩ := bind_eq_ok.mp h
    obtain ⟨all, hall, h⟩ := bind_eq_ok.mp h
    cases h
    exact assign_log hall
  simp only [tracedSource] at h
  split at h
  · next hk =>
    obtain ⟨p, -, h⟩ := bind_eq_ok.mp h
    rw [if_pos hk]
    exact hput p _ h
  · next hk =>
    obtain ⟨p, -, h⟩ := bind_eq_ok.mp h
    rw [if_neg hk]
    exact hput p _ h

/-- The sources of group `i` and then its parity. -/
def groupLog (k r i count parityPos : Nat) : List (Nat × Origin) :=
  (List.range count).map (fun ii => (i * (r + 1) + ii,
    if i * r + ii < k then .data (i * r + ii) else .global (i * r + ii - k))) ++
    [(parityPos, .localParity i)]

theorem tracedGroup_log {i count parityPos : Nat} {all all' : Traced}
    (h : tracedGroup V k r i blockSize dataPtrs globalPtrs all count parityPos = .ok all') :
    all'.2 = all.2 ++ groupLog k r i count parityPos := by
  have hrun : ∀ m st, (List.range m).foldlM (tracedSource k r i dataPtrs globalPtrs) (Cells.new count, all) =
      .ok st → st.2.2 = all.2 ++ (List.range m).map (fun ii => (i * (r + 1) + ii,
        if i * r + ii < k then .data (i * r + ii) else .global (i * r + ii - k))) := by
    intro m
    induction m with
    | zero =>
      intro st h
      cases h
      simp
    | succ m ih =>
      intro st h
      rw [List.range_succ, List.foldlM_append, bind_eq_ok] at h
      obtain ⟨st1, h1, h⟩ := h
      rw [List.foldlM_cons, bind_eq_ok] at h
      obtain ⟨st2, h2, h⟩ := h
      cases h
      rw [tracedSource_log h2, ih st1 h1, List.range_succ, List.map_append, List.append_assoc]
      rfl
  obtain ⟨st, hst, h⟩ := bind_eq_ok.mp h
  obtain ⟨coding, -, h⟩ := bind_eq_ok.mp h
  obtain ⟨parity, -, h⟩ := bind_eq_ok.mp h
  rw [assign_log h, hrun count st hst, groupLog, List.append_assoc]

theorem origin_source (hr : 1 ≤ r) {i ii : Nat} (hi : i < localGroupNumber n r)
    (hii : ii < groupCount n r i) : origin n k r (i * (r + 1) + ii) =
      if i * r + ii < k then .data (i * r + ii) else .global (i * r + ii - k) := by
  have hle := groupCount_le n r i
  rw [origin, if_neg (not_isParity hr i ii hi hii), group_div (by omega), group_mod (by omega)]

theorem origin_parity (hr : 1 ≤ r) {i : Nat} (hi : i < localGroupNumber n r) :
    origin n k r (parityPosition n r i) = .localParity i := by
  rw [origin, if_pos (isParity_parityPosition hr i hi), parityPosition, group_div (groupCount_le n r i)]

theorem groupLog_eq (hr : 1 ≤ r) {i : Nat} (hi : i < localGroupNumber n r) :
    groupLog k r i (groupCount n r i) (parityPosition n r i) =
      (List.range (groupCount n r i + 1)).map (fun ii => entry n k r (i * (r + 1) + ii)) := by
  rw [List.range_succ, List.map_append, groupLog]
  congr 1
  · apply List.map_congr_left
    intro ii hii
    rw [entry, origin_source hr hi (List.mem_range.mp hii)]
  · rw [List.map_singleton, entry, ← parityPosition, origin_parity hr hi]

theorem tracedStep_log (hv : Valid n k r) {i : Nat} (hi : i < localGroupNumber n r) {st st' : Nat × Traced}
    (hrem : st.1 = n - localGroupNumber n r - i * r)
    (h : tracedStep V n k r blockSize dataPtrs globalPtrs st i = .ok st') :
    st'.2.2 = st.2.2 ++ groupLog k r i (groupCount n r i) (parityPosition n r i) ∧
      (i + 1 < localGroupNumber n r → st'.1 = n - localGroupNumber n r - (i + 1) * r) := by
  have e : (i + 1) * r = i * r + r := by ring
  unfold tracedStep at h
  rcases group_cases hv.r_pos i hi with hc | hc
  · rw [if_pos (by omega)] at h
    obtain ⟨all, hall, h⟩ := bind_eq_ok.mp h
    cases h
    refine ⟨?_, fun _ => by simp only; omega⟩
    rw [tracedGroup_log hall, parityPosition, hc.2.2]
  · rw [if_neg (by omega)] at h
    obtain ⟨all, hall, h⟩ := bind_eq_ok.mp h
    cases h
    refine ⟨?_, fun hlt => by omega⟩
    rw [tracedGroup_log hall, parityPosition, hrem, ← hc.2.2.2.2]
    congr 2
    omega

/-- The loop assigns the positions one after the other, each from its origin. -/
theorem tracedLoop_log (hv : Valid n k r) {all : Traced}
    (h : tracedLoop V n k r blockSize dataPtrs globalPtrs = .ok all) :
    all.2 = (List.range n).map (entry n k r) := by
  have hfits := hv.fits
  have hrun : ∀ m ≤ localGroupNumber n r, ∀ st, (List.range m).foldlM
      (tracedStep V n k r blockSize dataPtrs globalPtrs)
      (k + globalNumber n k r, (Cells.filled n (zeroBlock blockSize), [])) = .ok st →
      st.2.2 = (List.range (min n (m * (r + 1)))).map (entry n k r) ∧
        (m < localGroupNumber n r → st.1 = n - localGroupNumber n r - m * r) := by
    intro m
    induction m with
    | zero =>
      intro _ st h
      cases h
      refine ⟨by simp, fun _ => ?_⟩
      unfold globalNumber
      omega
    | succ m ih =>
      intro hm st h
      rw [List.range_succ, List.foldlM_append, bind_eq_ok] at h
      obtain ⟨st1, h1, h⟩ := h
      rw [List.foldlM_cons, bind_eq_ok] at h
      obtain ⟨st2, h2, h⟩ := h
      cases h
      obtain ⟨hlog, hrem⟩ := ih (by omega) st1 h1
      obtain ⟨hlog', hrem'⟩ := tracedStep_log hv (by omega) (hrem (by omega)) h2
      refine ⟨?_, hrem'⟩
      have hlt := (lt_localGroupNumber_iff m).mp hm
      have e : (m + 1) * (r + 1) = m * (r + 1) + (r + 1) := by ring
      have hend : min n ((m + 1) * (r + 1)) = m * (r + 1) + (groupCount n r m + 1) := by
        rcases group_cases hv.r_pos m hm with hc | hc <;> omega
      have hsplit : (List.range (m * (r + 1) + (groupCount n r m + 1))).map (entry n k r) =
          (List.range (m * (r + 1))).map (entry n k r) ++
            (List.range (groupCount n r m + 1)).map (fun ii => entry n k r (m * (r + 1) + ii)) := by
        rw [List.range_add, List.map_append, List.map_map]
        rfl
      rw [hlog', hlog, groupLog_eq hv.r_pos hm, hend, Nat.min_eq_right (by omega), hsplit]
  obtain ⟨st, hst, h⟩ := bind_eq_ok.mp h
  cases h
  have hL := (lt_localGroupNumber_iff (n := n) (r := r) (localGroupNumber n r)).not.mp (lt_irrefl _)
  rw [(hrun _ le_rfl st hst).1, Nat.min_eq_left (by omega)]

end Trace

section Placed

variable {V : CodingMatrix} {n k r blockSize : Nat}

/-- The positions that hold no parity, in order. -/
theorem filter_not_isParity (hr : 1 ≤ r) :
    (List.range n).filter (fun p => ¬ IsParity n r p) =
      (List.range (n - localGroupNumber n r)).map (position r) := by
  have hmono : ∀ s s', s < s' → position r s < position r s' := by
    intro s s' h
    have := Nat.div_le_div_right (c := r) (Nat.le_of_lt h)
    unfold position
    omega
  have hlt : ∀ s < n - localGroupNumber n r, position r s < n := by
    intro s hs
    obtain ⟨hi, hii⟩ := lt_groupCount hr s hs
    rw [position_eq]
    have e : (s / r + 1) * (r + 1) = s / r * (r + 1) + r + 1 := by ring
    rcases group_cases hr _ hi with h | h <;> omega
  have hleft : ((List.range n).filter (fun p => ¬ IsParity n r p)).Pairwise (· < ·) :=
    List.pairwise_lt_range.filter _
  have hright : ((List.range (n - localGroupNumber n r)).map (position r)).Pairwise (· < ·) :=
    List.pairwise_map.mpr (List.pairwise_lt_range.imp (fun h => hmono _ _ h))
  apply List.Perm.eq_of_pairwise (fun a b _ _ hab hba => absurd hab (Nat.lt_asymm hba)) hleft hright
  rw [List.perm_ext_iff_of_nodup (hleft.imp Nat.ne_of_lt) (hright.imp Nat.ne_of_lt)]
  intro p
  rw [List.mem_filter, List.mem_range, List.mem_map, decide_eq_true_eq]
  constructor
  · rintro ⟨hp, hnp⟩
    rcases position_cases hr p hp with ⟨s, hs, rfl⟩ | ⟨i, hi, rfl⟩
    · exact ⟨s, List.mem_range.mpr hs, rfl⟩
    · exact absurd (isParity_parityPosition hr i hi) hnp
  · rintro ⟨s, hs, rfl⟩
    have hs := List.mem_range.mp hs
    exact ⟨hlt s hs, (position_spec hr s hs).1⟩

theorem origin_position (hr : 1 ≤ r) {s : Nat} (hs : s < n - localGroupNumber n r) :
    origin n k r (position r s) = if s < k then .data s else .global (s - k) := by
  obtain ⟨hnp, hdiv, hmod⟩ := position_spec hr s hs
  rw [origin, if_neg hnp, hdiv, hmod, Nat.div_add_mod']

/-- The data blocks, and then the global parities. -/
def sourceLog (k g r : Nat) : List (Nat × Origin) :=
  (List.range k).map (fun s => (s + s / r, Origin.data s)) ++
    (List.range g).map (fun j => (k + j + (k + j) / r, Origin.global j))

theorem filter_log (hv : Valid n k r) :
    ((List.range n).map (entry n k r)).filter (fun e => ¬ IsParity n r e.1) =
      sourceLog k (globalNumber n k r) r := by
  have hsum := sources_eq hv
  rw [List.filter_map]
  have hcomp : ((fun e : Nat × Origin => decide (¬ IsParity n r e.1)) ∘ entry n k r) =
      fun p => decide (¬ IsParity n r p) := rfl
  rw [hcomp, filter_not_isParity hv.r_pos, List.map_map, hsum, List.range_add, List.map_append, List.map_map,
    sourceLog]
  congr 1
  · apply List.map_congr_left
    intro s hs
    have hs := List.mem_range.mp hs
    rw [Function.comp_apply, entry, origin_position hv.r_pos (by omega), if_pos hs, position]
  · apply List.map_congr_left
    intro j hj
    have hj := List.mem_range.mp hj
    rw [Function.comp_apply, Function.comp_apply, entry, origin_position hv.r_pos (by omega),
      if_neg (by omega), position, Nat.add_sub_cancel_left]

theorem addBlock_self (b : Block) : addBlock b b = zeroBlock b.length := by
  apply block_ext (by simp)
  intro t
  rw [getD_addBlock b b rfl, add_self, getD_zeroBlock]

theorem foldl_addBlock_map (f : Nat → Block) (m : Nat) :
    ((List.range m).map f).foldl addBlock (zeroBlock blockSize) = combine blockSize m (fun _ => 1) f := by
  rw [List.foldl_map, combine]
  simp only [scaleBlock_one]

/-- What the group loop leaves in `all_blocks`, and where it took it from. -/
structure LaidOut (n k r blockSize : Nat) (data global : List Block) (all : Cells Block)
    (log : List (Nat × Origin)) : Prop where
  once : log.map Prod.fst = List.range n
  length : all.length = n
  parity : ∀ p o, (p, o) ∈ log → ((∃ j, o = .localParity j) ↔ p % (r + 1) = r ∨ p = n - 1)
  sources : log.filter (fun e => ¬ (e.1 % (r + 1) = r ∨ e.1 = n - 1)) = sourceLog k (globalNumber n k r) r
  dataAt : ∀ s < k, all[s + s / r]? = some data[s]?
  globalAt : ∀ j < globalNumber n k r, all[k + j + (k + j) / r]? = some global[j]?
  zero : ∀ j < localGroupNumber n r, ∃ blocks : List Block,
    (all.drop (j * (r + 1))).take (r + 1) = blocks.map some ∧
      blocks.foldl addBlock (zeroBlock blockSize) = zeroBlock blockSize
  last : lastDataIndex k r = (k - 1) + (k - 1) / r

theorem groupCount_pos (hr : 1 ≤ r) (hmod : n % (r + 1) ≠ 1) {i : Nat} (hi : i < localGroupNumber n r) :
    1 ≤ groupCount n r i := by
  rcases group_cases hr i hi with h | h
  · omega
  · by_contra h0
    apply hmod
    have hn : n = i * (r + 1) + 1 := by omega
    rw [hn]
    exact group_mod hr

theorem group_slice (hr : 1 ≤ r) {i : Nat} (hi : i < localGroupNumber n r) {β : Type} (f : Nat → β) :
    (((List.range n).map f).drop (i * (r + 1))).take (r + 1) =
      (List.range (groupCount n r i + 1)).map (fun ii => f (i * (r + 1) + ii)) := by
  have e : (i + 1) * (r + 1) = i * (r + 1) + r + 1 := by ring
  have hlt := (lt_localGroupNumber_iff i).mp hi
  have hlen : min (r + 1) (n - i * (r + 1)) = groupCount n r i + 1 := by
    rcases group_cases hr i hi with h | h <;> omega
  apply List.ext_getElem?
  intro t
  rw [List.getElem?_take, List.getElem?_drop, List.getElem?_map, List.getElem?_map]
  by_cases ht : t < groupCount n r i + 1
  · rw [if_pos (by omega), List.getElem?_range (by omega), List.getElem?_range ht]
    rfl
  · rw [List.getElem?_eq_none (l := List.range (groupCount n r i + 1)) (by simpa using ht)]
    split
    · rw [List.getElem?_eq_none (by rw [List.length_range]; omega)]
      rfl
    · rfl

section Stripe

variable {data global : List Block} {src : Nat → Block} (hv : Valid n k r)
  (hleft : ∀ s < k, data[s]? = some (src s))
  (hright : ∀ j < globalNumber n k r, global[j]? = some (src (k + j)))

include hv in
/-- Each local group sums to the zero block. -/
theorem group_sum_zero (hl : ∀ s < n - localGroupNumber n r, (src s).length = blockSize) {i : Nat}
    (hi : i < localGroupNumber n r) :
    ((List.range (groupCount n r i + 1)).map
      (fun ii => stripeBlock n r blockSize src (i * (r + 1) + ii))).foldl addBlock (zeroBlock blockSize) =
      zeroBlock blockSize := by
  have hsources : combine blockSize (groupCount n r i) (fun _ => 1)
      (fun ii => stripeBlock n r blockSize src (i * (r + 1) + ii)) = parityBlock n r blockSize src i :=
    combine_congr (fun _ _ => rfl) (fun ii hii => stripeBlock_source hv.r_pos i ii hi hii)
  rw [List.range_succ, List.map_append, List.foldl_append, foldl_addBlock_map, hsources, List.map_singleton,
    List.foldl_cons, List.foldl_nil, ← parityPosition, stripeBlock_parity hv.r_pos i hi, addBlock_self,
    length_parityBlock hl]

include hv in
theorem stripe_at {s : Nat} (hs : s < n - localGroupNumber n r) :
    ((List.range n).map (fun p => some (stripeBlock n r blockSize src p)))[s + s / r]? =
      some (some (src s)) := by
  have hpos : position r s ∈ (List.range n).filter (fun p => ¬ IsParity n r p) := by
    rw [filter_not_isParity hv.r_pos]
    exact List.mem_map.mpr ⟨s, List.mem_range.mpr hs, rfl⟩
  have hlt := List.mem_range.mp (List.mem_of_mem_filter hpos)
  rw [← position, List.getElem?_map, List.getElem?_range hlt, Option.map_some,
    stripeBlock_position hv.r_pos s hs]

include hv hleft hright in
/-- The stripe, with each position recorded once, is laid out. -/
theorem laidOut_stripe (hl : ∀ s < n - localGroupNumber n r, (src s).length = blockSize) :
    LaidOut n k r blockSize data global
      ((List.range n).map (fun p => some (stripeBlock n r blockSize src p)))
      ((List.range n).map (entry n k r)) := by
  have hfits := hv.fits
  have hg := sources_eq hv
  have hpar : ∀ p, IsParity n r p ↔ p % (r + 1) = r ∨ p = n - 1 := by
    intro p
    have hk := hv.k_pos
    unfold IsParity
    omega
  refine ⟨?_, by simp, ?_, ?_, ?_, ?_, ?_, ?_⟩
  · rw [List.map_map]
    exact List.map_id _
  · intro p o hmem
    obtain ⟨q, -, hq⟩ := List.mem_map.mp hmem
    cases hq
    rw [← hpar, origin]
    by_cases hp : IsParity n r p
    · simp [hp]
    · rw [if_neg hp]
      split <;> simp [hp]
  · rw [← filter_log hv]
    congr 1
    funext e
    rw [decide_eq_decide, hpar]
  · intro s hs
    rw [stripe_at hv (by omega), hleft s hs]
  · intro j hj
    rw [stripe_at hv (by omega), hright j hj]
  · intro i hi
    refine ⟨_, ?_, group_sum_zero hv hl hi⟩
    rw [group_slice hv.r_pos hi, List.map_map]
    rfl
  · unfold lastDataIndex
    have hk := hv.k_pos
    generalize (k - 1) / r = q
    omega

end Stripe

end Placed

end OptLrc.Layout
