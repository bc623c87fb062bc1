import OptLrc.Coding

namespace OptLrc.Erasures

open OptLrc.Galois OptLrc.Memory OptLrc.Jerasure OptLrc.Distance OptLrc.Codes OptLrc.Independence
  OptLrc.Tables OptLrc.Vandermonde OptLrc.Inversion OptLrc.Coding

/-- The loop of `jerasure_erasures_to_erased`, up to the -1 that ends the list; `none` is the
null pointer it returns once fewer than `k` devices are left. -/
def eraseAll (k : Nat) : List Nat → List Bool → Nat → Except Fault (Option (List Bool))
  | [], erased, _ => .ok (some erased)
  | e :: erasures, erased, nonErased =>
    match erased[e]? with
    | none => .error .outOfBounds
    | some true => eraseAll k erasures erased nonErased
    | some false =>
      if nonErased - 1 < k then .ok none
      else eraseAll k erasures (erased.set e true) (nonErased - 1)

def erasuresToErased (k m : Nat) (erasures : List Nat) : Except Fault (Option (List Bool)) :=
  eraseAll k erasures (List.replicate (k + m) false) (k + m)

/-- The first `need` devices from `i` on that are not erased. -/
def decodingIds : List Bool → Nat → Nat → Except Fault (List Nat)
  | _, _, 0 => .ok []
  | [], _, _ + 1 => .error .outOfBounds
  | true :: erased, i, need + 1 => decodingIds erased (i + 1) (need + 1)
  | false :: erased, i, need + 1 => do return i :: (← decodingIds erased (i + 1) need)

def decodingRows (k : Nat) (matrix : Nat → Nat → Byte) (ids : List Nat) : ByteMatrix k k :=
  Table.ofFn k k fun i j =>
    let id := ids.getD i 0
    if id < k then if j = id then 1 else 0 else matrix (id - k) j

/-- The decoding matrix and `dm_ids`; `none` is the return of -1. -/
def makeDecodingMatrix (k : Nat) (matrix : Nat → Nat → Byte) (erased : List Bool) :
    Except Fault (Option (ByteMatrix k k × List Nat)) := do
  let ids ← decodingIds erased 0 k
  match invertMatrix (decodingRows k matrix ids) with
  | .ok inv => return some (inv, ids)
  | .error .notInvertible => return none
  | .error _ => throw .outOfBounds

/-- One turn of the loop that decodes data devices, with the number still to decode. -/
def decodeTurn (k : Nat) (erased : List Bool) (decoding : Option (ByteMatrix k k × List Nat))
    (size : Nat) (st : Nat × Devices) (i : Nat) : Except Fault (Nat × Devices) :=
  if 0 < st.1 ∧ erased.getD i false then
    match decoding with
    | none => .error .outOfBounds
    | some (inv, ids) => do
      let d ← matrixDotprod k (inv.get i) (ids.getD · 0) i st.2 size
      return (st.1 - 1, d)
  else .ok st

def encodeTurn (k : Nat) (matrix : Nat → Nat → Byte) (erased : List Bool) (size : Nat) (d : Devices)
    (i : Nat) : Except Fault Devices :=
  if erased.getD (k + i) false then matrixDotprod k (matrix i) id (k + i) d size else .ok d

/-- The last data device that is still lost is decoded with coding device 0. -/
def parityTurn (k : Nat) (matrix : Nat → Nat → Byte) (lastdrive : Nat) (size : Nat)
    (st : Nat × Devices) : Except Fault Devices :=
  if 0 < st.1 then
    matrixDotprod k (matrix 0) (fun i => if i < lastdrive then i else i + 1) lastdrive st.2 size
  else .ok st.2

def decodePasses (k m : Nat) (matrix : Nat → Nat → Byte) (erased : List Bool) (lastdrive edd : Nat)
    (decoding : Option (ByteMatrix k k × List Nat)) (d : Devices) (size : Nat) :
    Except Fault (Int × Devices) := do
  let st ← (List.range lastdrive).foldlM (decodeTurn k erased decoding size) (edd, d)
  let d ← parityTurn k matrix lastdrive size st
  let d ← (List.range m).foldlM (encodeTurn k matrix erased size) d
  return (0, d)

/-- Whether coding device 0 cannot be used as the parity of the data devices. -/
def parityLost (k : Nat) (rowKOnes : Bool) (erased : List Bool) : Except Fault Bool :=
  if rowKOnes then
    match erased[k]? with
    | none => .error .outOfBounds
    | some b => .ok b
  else .ok true

def decodeErased (k m : Nat) (matrix : Nat → Nat → Byte) (rowKOnes : Bool) (erased : List Bool)
    (d : Devices) (size : Nat) : Except Fault (Int × Devices) := do
  let lost := (List.range k).filter fun i => erased.getD i false
  let parityLost ← parityLost k rowKOnes erased
  let lastdrive := if parityLost then k else lost.getLastD k
  if 1 < lost.length ∨ 0 < lost.length ∧ parityLost then
    match ← makeDecodingMatrix k matrix erased with
    | none => return (-1, d)
    | some decoding => decodePasses k m matrix erased lastdrive lost.length (some decoding) d size
  else decodePasses k m matrix erased lastdrive lost.length none d size

/-- `jerasure_matrix_decode(k, m, 8, matrix, row_k_ones, erasures, ...)`. -/
def matrixDecode (k m : Nat) (matrix : Nat → Nat → Byte) (rowKOnes : Bool) (erasures : List Nat)
    (d : Devices) (size : Nat) : Except Fault (Int × Devices) := do
  match ← erasuresToErased k m erasures with
  | none => return (-1, d)
  | some erased => decodeErased k m matrix rowKOnes erased d size

/-- The marks of the devices that a set of erasures names. -/
structure Marks (total : Nat) (lost : Finset Nat) (erased : List Bool) : Prop where
  length_eq : erased.length = total
  mark : ∀ s < total, erased[s]? = some (decide (s ∈ lost))

theorem Marks.getD {total : Nat} {lost : Finset Nat} {erased : List Bool} (h : Marks total lost erased)
    {s : Nat} (hs : s < total) : erased.getD s false = decide (s ∈ lost) := by
  rw [List.getD_eq_getElem?_getD, h.mark s hs, Option.getD_some]

theorem Marks.insert {total : Nat} {lost : Finset Nat} {erased : List Bool}
    (h : Marks total lost erased) {e : Nat} (he : e < total) :
    Marks total (insert e lost) (erased.set e true) := by
  refine ⟨by rw [List.length_set, h.length_eq], fun s hs => ?_⟩
  by_cases hse : s = e
  · rw [hse, List.getElem?_set_self (by rw [h.length_eq]; exact he)]
    simp
  · rw [List.getElem?_set_ne (Ne.symm hse), h.mark s hs]
    simp [hse]

theorem eraseAll_spec {k total : Nat} {erasures : List Nat} (hlt : ∀ e ∈ erasures, e < total)
    {lost : Finset Nat} (hsub : lost ⊆ Finset.range total) (hcard : k + lost.card ≤ total)
    {erased : List Bool} (h : Marks total lost erased) :
    (k + (lost ∪ erasures.toFinset).card ≤ total → ∃ erased',
      eraseAll k erasures erased (total - lost.card) = .ok (some erased') ∧
        Marks total (lost ∪ erasures.toFinset) erased') ∧
    (total < k + (lost ∪ erasures.toFinset).card →
      eraseAll k erasures erased (total - lost.card) = .ok none) := by
  induction erasures generalizing lost erased with
  | nil =>
    rw [List.toFinset_nil, Finset.union_empty]
    exact ⟨fun _ => ⟨erased, rfl, h⟩, fun h' => absurd hcard (by omega)⟩
  | cons e erasures ih =>
    have he := hlt e List.mem_cons_self
    have hlt' : ∀ t ∈ erasures, t < total := fun t ht => hlt t (List.mem_cons_of_mem e ht)
    rw [List.toFinset_cons, Finset.union_insert, ← Finset.insert_union]
    by_cases hmem : e ∈ lost
    · rw [Finset.insert_eq_of_mem hmem]
      simp only [eraseAll, h.mark e he, hmem, decide_true]
      exact ih hlt' hsub hcard h
    · have hins : (insert e lost).card = lost.card + 1 := Finset.card_insert_of_notMem hmem
      have hsub' : insert e lost ⊆ Finset.range total :=
        Finset.insert_subset (Finset.mem_range.mpr he) hsub
      have hle : (insert e lost).card ≤ total := Finset.card_range total ▸ Finset.card_le_card hsub'
      simp only [eraseAll, h.mark e he, hmem, decide_false]
      by_cases hfew : total - lost.card - 1 < k
      · have hsub := Finset.card_le_card
          (show insert e lost ⊆ insert e lost ∪ erasures.toFinset from Finset.subset_union_left)
        rw [if_pos hfew]
        exact ⟨fun h' => absurd h' (by omega), fun _ => rfl⟩
      · rw [if_neg hfew, show total - lost.card - 1 = total - (insert e lost).card by omega]
        exact ih hlt' hsub' (by omega) (h.insert he)

theorem erasuresToErased_spec {k m : Nat} {erasures : List Nat} (hlt : ∀ e ∈ erasures, e < k + m) :
    (erasures.toFinset.card ≤ m → ∃ erased, erasuresToErased k m erasures = .ok (some erased) ∧
      Marks (k + m) erasures.toFinset erased) ∧
    (m < erasures.toFinset.card → erasuresToErased k m erasures = .ok none) := by
  have hstart : Marks (k + m) ∅ (List.replicate (k + m) false) :=
    ⟨by simp, fun s hs => by simp [hs]⟩
  have := eraseAll_spec (k := k) hlt (Finset.empty_subset _) (by simp) hstart
  rw [Finset.empty_union, Finset.card_empty, Nat.sub_zero] at this
  exact ⟨fun h => this.1 (by omega), fun h => this.2 (by omega)⟩

/-- Enough devices are left, so the scan stops within the array. -/
theorem decodingIds_spec (erased : List Bool) (i need : Nat) (h : need ≤ erased.count false) :
    ∃ ids, decodingIds erased i need = .ok ids ∧ ids.length = need ∧ ids.Pairwise (· < ·) ∧
      ∀ id ∈ ids, i ≤ id ∧ erased[id - i]? = some false := by
  induction erased generalizing i need with
  | nil =>
    obtain rfl : need = 0 := by simpa using h
    exact ⟨[], rfl, rfl, List.Pairwise.nil, by simp⟩
  | cons b erased ih =>
    have hshift : ∀ id, i + 1 ≤ id → erased[id - (i + 1)]? = some false →
        i ≤ id ∧ (b :: erased)[id - i]? = some false := by
      intro id hle hid
      rw [show id - i = id - (i + 1) + 1 by omega, List.getElem?_cons_succ]
      exact ⟨by omega, hid⟩
    cases need with
    | zero => exact ⟨[], by cases b <;> rfl, rfl, List.Pairwise.nil, by simp⟩
    | succ need =>
      cases b with
      | true =>
        obtain ⟨ids, he, hlen, hsort, hall⟩ := ih (i + 1) (need + 1) (by simpa using h)
        exact ⟨ids, he, hlen, hsort, fun id hid => hshift id (hall id hid).1 (hall id hid).2⟩
      | false =>
        obtain ⟨ids, he, hlen, hsort, hall⟩ := ih (i + 1) need (by simpa using h)
        refine ⟨i :: ids, by rw [decodingIds, he]; rfl, by simp [hlen], ?_, fun id hid => ?_⟩
        · exact List.pairwise_cons.mpr ⟨fun id hid => (hall id hid).1, hsort⟩
        · rcases List.mem_cons.mp hid with rfl | hid
          · exact ⟨le_rfl, by simp⟩
          · exact hshift id (hall id hid).1 (hall id hid).2

theorem Marks.count_false {total : Nat} {lost : Finset Nat} {erased : List Bool}
    (h : Marks total lost erased) (hsub : lost ⊆ Finset.range total) :
    erased.count false = total - lost.card := by
  have hmap : erased = (List.range total).map fun s => decide (s ∈ lost) := by
    apply List.ext_getElem?
    intro s
    rcases Nat.lt_or_ge s total with hs | hs
    · rw [h.mark s hs]
      simp [hs]
    · rw [List.getElem?_eq_none (by rw [h.length_eq]; exact hs), List.getElem?_eq_none (by simpa using hs)]
  rw [hmap, List.count_eq_countP, List.countP_map, ← Finset.card_range total,
    ← Finset.card_sdiff_of_subset (Finset.card_range total ▸ hsub), Finset.card_range]
  rw [List.countP_eq_length_filter, ← List.toFinset_card_of_nodup (List.nodup_range.filter _)]
  congr 1
  ext s
  simp

section Decoding

variable {A : Nat → Nat → Byte} {k m size : Nat}

theorem Mds.entry_ne_zero (hA : Mds A k m) {j i : Nat} (hj : j < m) (hi : i < k) : A j i ≠ 0 := by
  intro hzero
  have hnot : k + j ∉ (Finset.range k).erase i := by simp
  have h := hA (insert (k + j) ((Finset.range k).erase i)) ?_ ?_ (unitRow i) ?_ i hi
  · simp [unitRow] at h
  · apply Finset.insert_subset (Finset.mem_range.mpr (by omega))
    exact (Finset.erase_subset _ _).trans (Finset.range_mono (by omega))
  · rw [Finset.card_insert_of_notMem hnot, Finset.card_erase_of_mem (Finset.mem_range.mpr hi),
      Finset.card_range]
    omega
  · intro t ht
    rcases Finset.mem_insert.mp ht with rfl | ht
    · rw [symbol, if_neg (by omega), Nat.add_sub_cancel_left]
      exact (dot_unit_right hi (A j)).trans hzero
    · obtain ⟨hti, ht⟩ := Finset.mem_erase.mp ht
      rw [symbol_data A _ (Finset.mem_range.mp ht), unitRow, if_neg hti]

/-- The decoding matrix takes the symbols of the devices `ids` back to the data. -/
structure Inverts (A : Nat → Nat → Byte) (k m : Nat) (lost : Finset Nat)
    (decoding : ByteMatrix k k × List Nat) : Prop where
  intact : ∀ t < k, decoding.2.getD t 0 < k + m ∧ decoding.2.getD t 0 ∉ lost
  inverse : ∀ i < k, ∀ c, dot k (decoding.1.get i) (fun t => symbol A k c (decoding.2.getD t 0)) = c i

theorem makeDecodingMatrix_spec (hA : Mds A k m) {lost : Finset Nat} {erased : List Bool}
    (h : Marks (k + m) lost erased) (hsub : lost ⊆ Finset.range (k + m)) (hcard : lost.card ≤ m) :
    ∃ decoding, makeDecodingMatrix k A erased = .ok (some decoding) ∧ Inverts A k m lost decoding := by
  obtain ⟨ids, hids, hlen, hsort, hall⟩ := decodingIds_spec erased 0 k (by rw [h.count_false hsub]; omega)
  have hget : ∀ t (ht : t < ids.length), ids.getD t 0 = ids[t] := by
    intro t ht
    simp [List.getD_eq_getElem?_getD, ht]
  have hintact : ∀ id ∈ ids, id < k + m ∧ id ∉ lost := by
    intro id hid
    have hf := (hall id hid).2
    rw [Nat.sub_zero] at hf
    have hlt : id < k + m := by
      rw [← h.length_eq]
      exact (List.getElem?_eq_some_iff.mp hf).1
    rw [h.mark id hlt] at hf
    exact ⟨hlt, by simpa using hf⟩
  have hrow : ∀ t < k, ∀ c, dot k ((decodingRows k A ids).get t) c = symbol A k c (ids.getD t 0) := by
    intro t ht c
    rw [symbol_eq_sum]
    apply Finset.sum_congr rfl
    intro i hi
    rw [decodingRows, Table.get_ofFn _ ht (Finset.mem_range.mp hi)]
    rfl
  rcases invertMatrix_cases (decodingRows k A ids) with ⟨inv, hinv, hleft⟩ | ⟨-, c, ⟨s, hs, hne⟩, hc⟩
  · refine ⟨(inv, ids), by rw [makeDecodingMatrix, hids, ok_bind, hinv]; rfl, fun t ht => ?_, fun i hi c => ?_⟩
    · rw [hget t (by omega)]
      exact hintact _ (List.getElem_mem _)
    · rw [← hleft i hi c]
      apply Finset.sum_congr rfl
      intro t ht
      simp only [hrow t (Finset.mem_range.mp ht)]
  · -- A word that is zero at `k` devices is zero.
    apply absurd _ hne
    refine hA ids.toFinset (fun id hid => ?_) ?_ c (fun id hid => ?_) s hs
    · exact Finset.mem_range.mpr (hintact id (List.mem_toFinset.mp hid)).1
    · rw [List.toFinset_card_of_nodup (hsort.imp (fun h => Nat.ne_of_lt h)), hlen]
    · obtain ⟨t, ht, rfl⟩ := List.getElem_of_mem (List.mem_toFinset.mp hid)
      have ht' : t < k := hlen ▸ ht
      rw [← hget t ht, ← hrow t ht' c, hc t ht']

/-- How many data devices from `n` on are lost. -/
def left (k : Nat) (lost : Finset Nat) (n : Nat) : Nat :=
  ((Finset.range k).filter fun s => s ∈ lost ∧ n ≤ s).card

theorem left_succ {lost : Finset Nat} {n : Nat} (hn : n < k) :
    left k lost n = left k lost (n + 1) + if n ∈ lost then 1 else 0 := by
  unfold left
  split
  · next hmem =>
    have hnot : n ∉ (Finset.range k).filter fun s => s ∈ lost ∧ n + 1 ≤ s := by simp
    rw [← Finset.card_insert_of_notMem hnot]
    congr 1
    ext s
    simp only [Finset.mem_filter, Finset.mem_insert, Finset.mem_range]
    constructor
    · rintro ⟨h1, h2, h3⟩
      by_cases hsn : s = n
      · exact .inl hsn
      · exact .inr ⟨h1, h2, by omega⟩
    · rintro (rfl | ⟨h1, h2, h3⟩)
      · exact ⟨hn, hmem, le_rfl⟩
      · exact ⟨h1, h2, by omega⟩
  · next hmem =>
    rw [Nat.add_zero]
    congr 1
    ext s
    simp only [Finset.mem_filter, Finset.mem_range, and_congr_right_iff]
    intro _ hs
    constructor
    · intro hle
      have : s ≠ n := fun h => hmem (h ▸ hs)
      omega
    · omega

theorem left_pos {lost : Finset Nat} {n : Nat} :
    0 < left k lost n ↔ ∃ s < k, s ∈ lost ∧ n ≤ s := by
  simp [left, Finset.card_pos, Finset.Nonempty]

theorem Inverts.row_ne_zero {lost : Finset Nat} {decoding : ByteMatrix k k × List Nat}
    (h : Inverts A k m lost decoding) {i : Nat} (hi : i < k) : ∃ t < k, decoding.1.get i t ≠ 0 := by
  by_contra hnone
  push Not at hnone
  have h1 := h.inverse i hi (unitRow i)
  rw [dot, Finset.sum_eq_zero, unitRow, if_pos rfl] at h1
  · exact zero_ne_one h1
  · intro t ht
    rw [hnone t (Finset.mem_range.mp ht), zero_mul]

variable {src : Nat → Block} {lost : Finset Nat} {erased : List Bool} {d : Devices}

theorem decodeLoop_spec (hl : ∀ i < k, (src i).length = size) (h8 : 8 ∣ size)
    (hmarks : Marks (k + m) lost erased) {decoding : Option (ByteMatrix k k × List Nat)} {last : Nat}
    (hlast : last ≤ k) (hdecoding : ∀ i < last, i ∈ lost → ∃ dec, decoding = some dec ∧ Inverts A k m lost dec)
    (h : Held A k m size src (· ∈ lost) d) :
    ∃ d', (List.range last).foldlM (decodeTurn k erased decoding size) (left k lost 0, d) =
        .ok (left k lost last, d') ∧ Held A k m size src (fun s => s ∈ lost ∧ last ≤ s) d' := by
  have hloop := Loops.foldlM_range
    (fun n (st : Nat × Devices) => st.1 = left k lost n ∧
      Held A k m size src (fun s => s ∈ lost ∧ n ≤ s) st.2) (f := decodeTurn k erased decoding size)
    last (s := (left k lost 0, d)) ?_ ⟨rfl, h.congr (fun s _ hs => ⟨hs, Nat.zero_le s⟩)⟩
  · obtain ⟨⟨count, d'⟩, hrun, hcount, hheld⟩ := hloop
    exact ⟨d', by rw [hrun, ← hcount], hheld⟩
  · rintro i hi ⟨count, d⟩ ⟨hcount, hheld⟩
    simp only at hcount hheld
    have hsucc := @left_succ k lost i (by omega)
    unfold decodeTurn
    rw [hmarks.getD (by omega)]
    by_cases hmem : i ∈ lost
    · obtain ⟨⟨inv, ids⟩, rfl, hinv⟩ := hdecoding i hi hmem
      rw [if_pos hmem] at hsucc
      rw [if_pos ⟨by simp only; omega, by simpa using hmem⟩]
      obtain ⟨d', hd', hheld'⟩ := matrixDotprod_spec hheld hl h8 (inv.get i)
        (ids.getD · 0) (show i < k + m by omega)
        (fun t ht => ⟨(hinv.intact t ht).1, fun hb => (hinv.intact t ht).2 hb.1⟩)
        (hinv.row_ne_zero (by omega))
        (fun c => by rw [symbol_data A c (show i < k by omega)]; exact hinv.inverse i (by omega) c)
      refine ⟨(count - 1, d'), by simp only [hd', ok_bind, pure_eq_ok], by simp only; omega, ?_⟩
      apply hheld'.congr
      rintro s _ ⟨⟨h1, h2⟩, h3⟩
      exact ⟨h1, by omega⟩
    · rw [if_neg hmem] at hsucc
      rw [if_neg (by simp [hmem])]
      refine ⟨_, rfl, by simp only; omega, ?_⟩
      apply hheld.congr
      rintro s _ ⟨h1, h2⟩
      exact ⟨h1, Nat.lt_of_le_of_ne h2 (fun h => hmem (h ▸ h1))⟩

/-- With a row of ones, the words of the data devices and of coding device 0 sum to zero. -/
theorem sum_symbol (hone : ∀ i < k, A 0 i = 1) (c : Nat → Byte) :
    ∑ s ∈ Finset.range (k + 1), symbol A k c s = 0 := by
  have hdata : ∑ s ∈ Finset.range k, symbol A k c s = ∑ s ∈ Finset.range k, c s :=
    Finset.sum_congr rfl fun s hs => symbol_data A c (Finset.mem_range.mp hs)
  have hparity : symbol A k c k = ∑ s ∈ Finset.range k, c s := by
    rw [symbol, if_neg (lt_irrefl k), Nat.sub_self]
    apply Finset.sum_congr rfl
    intro i hi
    rw [hone i (Finset.mem_range.mp hi), one_mul]
  rw [Finset.sum_range_succ, hdata, hparity, add_self]

/-- The last lost data device is the sum of the others and of coding device 0. -/
theorem parityTurn_spec (hl : ∀ i < k, (src i).length = size) (h8 : 8 ∣ size) (hm : 0 < m)
    (hone : ∀ i < k, A 0 i = 1) {last : Nat} (hlast : last < k)
    (hlater : ∀ s ≤ k, s ∈ lost → s ≤ last)
    (h : Held A k m size src (fun s => s ∈ lost ∧ last ≤ s) d) :
    ∃ d', matrixDotprod k (A 0) (fun i => if i < last then i else i + 1) last d size = .ok d' ∧
      Held A k m size src (fun s => s ∈ lost ∧ k ≤ s) d' := by
  have hdot := matrixDotprod_spec h hl h8 (A 0)
    (fun i => if i < last then i else i + 1) (show last < k + m by omega) ?_
    ⟨0, by omega, by rw [hone 0 (by omega)]; exact one_ne_zero⟩ ?_
  · obtain ⟨d', hd', hheld⟩ := hdot
    refine ⟨d', hd', hheld.congr ?_⟩
    rintro s _ ⟨⟨h1, h2⟩, h3⟩
    refine ⟨h1, ?_⟩
    by_contra hsk
    have := hlater s (by omega) h1
    omega
  · intro i hi
    refine ⟨by split <;> omega, fun ⟨h1, h2⟩ => ?_⟩
    have := hlater _ (by split <;> omega) h1
    split at this <;> split at h2 <;> omega
  · intro c
    have hdot : dot k (A 0) (fun i => symbol A k c (if i < last then i else i + 1)) =
        ∑ i ∈ Finset.range k, symbol A k c (if i < last then i else i + 1) := by
      apply Finset.sum_congr rfl
      intro i hi
      rw [hone i (Finset.mem_range.mp hi), one_mul]
    rw [hdot, Decode.sum_skip (symbol A k c) (show last < k + 1 by omega), sum_symbol hone, add_zero]

theorem encodeLoop_spec (hA : Mds A k m) (hk : 0 < k) (hl : ∀ i < k, (src i).length = size)
    (h8 : 8 ∣ size) (hmarks : Marks (k + m) lost erased)
    (h : Held A k m size src (fun s => s ∈ lost ∧ k ≤ s) d) :
    ∃ d', (List.range m).foldlM (encodeTurn k A erased size) d = .ok d' ∧
      Held A k m size src (fun _ => False) d' := by
  have hloop := Loops.foldlM_range
    (fun n d => Held A k m size src (fun s => s ∈ lost ∧ k + n ≤ s) d) (f := encodeTurn k A erased size)
    m ?_ h
  · obtain ⟨d', hrun, hheld⟩ := hloop
    exact ⟨d', hrun, hheld.congr (fun s hs hb => by omega)⟩
  · intro i hi d hd
    unfold encodeTurn
    rw [hmarks.getD (by omega)]
    by_cases hmem : k + i ∈ lost
    · rw [if_pos (by simpa using hmem)]
      obtain ⟨d', hd', hheld⟩ := matrixDotprod_spec hd hl h8 (A i) id
        (show k + i < k + m by omega) (fun t ht => ⟨by simp only [id]; omega, fun hb => by
          have := hb.2
          simp only [id] at this
          omega⟩)
        ⟨0, hk, Mds.entry_ne_zero hA hi hk⟩ (fun c => by
          rw [symbol, if_neg (by omega), Nat.add_sub_cancel_left]
          apply Finset.sum_congr rfl
          intro t ht
          simp only [id_eq]
          rw [symbol_data A c (Finset.mem_range.mp ht)])
      refine ⟨d', hd', hheld.congr ?_⟩
      rintro s _ ⟨⟨h1, h2⟩, h3⟩
      exact ⟨h1, by omega⟩
    · rw [if_neg (by simpa using hmem)]
      refine ⟨d, rfl, hd.congr ?_⟩
      rintro s _ ⟨h1, h2⟩
      have : s ≠ k + i := fun h => hmem (h ▸ h1)
      exact ⟨h1, by omega⟩

/-- The last of the data devices that are lost, or none of them is. -/
theorem lastLost_cases (hmarks : Marks (k + m) lost erased) :
    ((List.range k).filter fun i => erased.getD i false).length = left k lost 0 ∧
      ((∀ s < k, s ∉ lost) ∧ (List.range k).filter (fun i => erased.getD i false) = [] ∨
        ∃ last < k, ((List.range k).filter fun i => erased.getD i false).getLastD k = last ∧
          last ∈ lost ∧ ∀ s < k, s ∈ lost → s ≤ last) := by
  have hmem : ∀ s, s ∈ (List.range k).filter (fun i => erased.getD i false) ↔ s < k ∧ s ∈ lost := by
    intro s
    rw [List.mem_filter, List.mem_range]
    apply and_congr_right
    intro hs
    rw [hmarks.getD (by omega), decide_eq_true_iff]
  have hsort : ((List.range k).filter fun i => erased.getD i false).Pairwise (· < ·) :=
    List.pairwise_lt_range.filter _
  constructor
  · rw [left, ← List.toFinset_card_of_nodup (hsort.imp (fun h => Nat.ne_of_lt h))]
    congr 1
    ext s
    rw [List.mem_toFinset, hmem, Finset.mem_filter, Finset.mem_range]
    simp
  · rcases List.eq_nil_or_concat' ((List.range k).filter fun i => erased.getD i false) with hnil | ⟨l, last, hlast⟩
    · refine .inl ⟨fun s hs hin => ?_, hnil⟩
      have := (hmem s).mpr ⟨hs, hin⟩
      rw [hnil] at this
      cases this
    · rw [hlast] at hmem hsort ⊢
      obtain ⟨hlt, hin⟩ := (hmem last).mp (by simp)
      refine .inr ⟨last, hlt, by simp, hin, fun s hs hin => ?_⟩
      have := (hmem s).mpr ⟨hs, hin⟩
      rcases List.mem_append.mp this with h | h
      · exact (List.pairwise_append.mp hsort).2.2 s h last (by simp) |>.le
      · rw [List.mem_singleton.mp h]

/-- The passes restore every device, when the decoding matrix is there for each data device
that the first pass decodes. -/
theorem decodePasses_spec (hA : Mds A k m) (hk : 0 < k) (hl : ∀ i < k, (src i).length = size)
    (h8 : 8 ∣ size) (hmarks : Marks (k + m) lost erased)
    {decoding : Option (ByteMatrix k k × List Nat)} {last : Nat} (hlast : last ≤ k)
    (hdecoding : ∀ i < last, i ∈ lost → ∃ dec, decoding = some dec ∧ Inverts A k m lost dec)
    (hparity : last < k → 0 < m ∧ (∀ i < k, A 0 i = 1) ∧ ∀ s ≤ k, s ∈ lost → s ≤ last)
    (h : Held A k m size src (· ∈ lost) d) :
    ∃ d', decodePasses k m A erased last (left k lost 0) decoding d size = .ok (0, d') ∧
      Held A k m size src (fun _ => False) d' := by
  obtain ⟨d₁, h1, hheld₁⟩ := decodeLoop_spec hl h8 hmarks hlast hdecoding h
  obtain ⟨d₂, h2, hheld₂⟩ : ∃ d', parityTurn k A last size (left k lost last, d₁) = .ok d' ∧
      Held A k m size src (fun s => s ∈ lost ∧ k ≤ s) d' := by
    unfold parityTurn
    split
    · next hleft =>
      obtain ⟨s, hs, _, hle⟩ := left_pos.mp hleft
      obtain ⟨hm, hone, hlater⟩ := hparity (hle.trans_lt hs)
      exact parityTurn_spec hl h8 hm hone (hle.trans_lt hs) hlater hheld₁
    · next hleft =>
      refine ⟨d₁, rfl, hheld₁.congr ?_⟩
      rintro s _ ⟨hs, hle⟩
      refine ⟨hs, ?_⟩
      by_contra hsk
      exact hleft (left_pos.mpr ⟨s, by omega, hs, hle⟩)
  obtain ⟨d₃, h3, hheld₃⟩ := encodeLoop_spec hA hk hl h8 hmarks hheld₂
  exact ⟨d₃, by simp only [decodePasses, h1, h2, h3, ok_bind, pure_eq_ok], hheld₃⟩

theorem decodeErased_spec (hA : Mds A k m) (hk : 0 < k) (hm : 0 < m)
    (hl : ∀ i < k, (src i).length = size) (h8 : 8 ∣ size) (rowKOnes : Bool)
    (hone : rowKOnes = true → ∀ i < k, A 0 i = 1) (hmarks : Marks (k + m) lost erased)
    (hsub : lost ⊆ Finset.range (k + m)) (hcard : lost.card ≤ m)
    (h : Held A k m size src (· ∈ lost) d) :
    ∃ d', decodeErased k m A rowKOnes erased d size = .ok (0, d') ∧
      Held A k m size src (fun _ => False) d' := by
  obtain ⟨dec, hmake, hinv⟩ := makeDecodingMatrix_spec hA hmarks hsub hcard
  obtain ⟨hedd, hlost⟩ := lastLost_cases hmarks
  have hpar : parityLost k rowKOnes erased = .ok (!rowKOnes || decide (k ∈ lost)) := by
    unfold parityLost
    cases rowKOnes with
    | false => rfl
    | true => simp [hmarks.mark k (by omega)]
  -- The device at which the first pass stops.
  obtain ⟨last, hdef, hle, hparity, hneeded⟩ : ∃ last,
      (if (!rowKOnes || decide (k ∈ lost)) = true then k
        else ((List.range k).filter fun i => erased.getD i false).getLastD k) = last ∧ last ≤ k ∧
      (last < k → 0 < m ∧ (∀ i < k, A 0 i = 1) ∧ ∀ s ≤ k, s ∈ lost → s ≤ last) ∧
      ∀ i < last, i ∈ lost → 1 < left k lost 0 ∨ 0 < left k lost 0 ∧ (!rowKOnes || decide (k ∈ lost)) = true := by
    by_cases hp : (!rowKOnes || decide (k ∈ lost)) = true
    · refine ⟨k, if_pos hp, le_rfl, fun h => absurd h (lt_irrefl k), fun i hi hmem => .inr ⟨?_, hp⟩⟩
      exact left_pos.mpr ⟨i, hi, hmem, Nat.zero_le i⟩
    · have hflag : rowKOnes = true ∧ k ∉ lost := by simpa using hp
      rcases hlost with ⟨hnone, hnil⟩ | ⟨last, hlt, hget, hin, hlater⟩
      · refine ⟨k, by rw [if_neg hp, hnil]; rfl, le_rfl, fun h => absurd h (lt_irrefl k), fun i hi hmem => ?_⟩
        exact absurd hmem (hnone i hi)
      · refine ⟨last, by rw [if_neg hp, hget], hlt.le, fun _ => ⟨hm, hone hflag.1, fun s hs hmem => ?_⟩,
          fun i hi hmem => .inl ?_⟩
        · rcases Nat.lt_or_ge s k with hsk | hks
          · exact hlater s hsk hmem
          · exact absurd ((show s = k by omega) ▸ hmem) hflag.2
        · apply Finset.one_lt_card.mpr
          exact ⟨i, by simp [hmem]; omega, last, by simp [hin, hlt], by omega⟩
  unfold decodeErased
  simp only [hpar, ok_bind, hdef, hedd]
  split
  · rw [hmake, ok_bind]
    exact decodePasses_spec hA hk hl h8 hmarks hle (fun i _ _ => ⟨dec, rfl, hinv⟩) hparity h
  · next hnot =>
    apply decodePasses_spec hA hk hl h8 hmarks hle _ hparity h
    intro i hi hmem
    exact absurd (hneeded i hi hmem) hnot

/-- The encoding of nonzero rows, whatever the coding devices held. -/
theorem jerasureMatrixEncode_any (hA : Mds A k m) (hk : 0 < k) (h8 : 8 ∣ size) (x : Tuple k size)
    (coding : Tuple m size) :
    jerasureMatrixEncode k m A x.ptrs coding.ptrs size =
      .ok (Tuple.of (k := m) (fun j => combine size k (A j) x.block)
        (fun j _ => length_combine size k (A j) x.block x.length_block')).ptrs := by
  have hloop := Loops.foldlM_range (fun n (cells : Cells Block) => cells.length = m ∧
      (∀ j < n, cells[j]? = some (some (combine size k (A j) x.block))) ∧
      ∀ j, n ≤ j → cells[j]? = coding.ptrs[j]?) (s := coding.ptrs)
    (f := fun coding i => do
      coding.write i (← jerasureMatrixDotprod k (A i) x.ptrs.read (← coding.read i) size)) m ?_
    ⟨by simp [Tuple.ptrs, coding.length_eq], fun j hj => absurd hj (by omega), fun _ _ => rfl⟩
  · obtain ⟨c, hrun, hlen, hdone, -⟩ := hloop
    refine hrun.trans (congrArg Except.ok ?_)
    apply List.ext_getElem?
    intro j
    rcases Nat.lt_or_ge j m with hj | hj
    · rw [hdone j hj, Tuple.ptrs_getElem? _ j hj, Tuple.block_of _ _ j hj]
    · rw [List.getElem?_eq_none (by omega), List.getElem?_eq_none (by simp [Tuple.ptrs, Tuple.length_eq, hj])]
  · rintro i hi c ⟨hlen, hdone, hrest⟩
    have hread : Cells.read c i = .ok (coding.block i) :=
      Cells.read_eq ((hrest i le_rfl).trans (coding.ptrs_getElem? i hi))
    have hdot := jerasureMatrixDotprod_any h8 (fun s hs => Cells.read_eq (x.ptrs_getElem? s hs))
      x.length_block' ⟨0, hk, Mds.entry_ne_zero hA hi hk⟩ (coding.length_block' i hi)
    simp only [hread, ok_bind, hdot]
    rw [Cells.write_eq _ (by omega)]
    refine ⟨_, rfl, by rw [List.length_set, hlen], fun j hj => ?_, fun j hj => ?_⟩
    · by_cases hji : j = i
      · rw [hji, List.getElem?_set_self (by omega)]
      · rw [List.getElem?_set_ne (Ne.symm hji)]
        exact hdone j (by omega)
    · rw [List.getElem?_set_ne (by omega)]
      exact hrest j (by omega)

theorem read_tuples (y : Tuple k size) (z : Tuple m size) {s : Nat} (hs : s < k + m) :
    Devices.read k ⟨y.ptrs, z.ptrs⟩ s = .ok (if s < k then y.block s else z.block (s - k)) := by
  unfold Devices.read
  by_cases h : s < k
  · rw [if_pos h, if_pos h]
    exact Cells.read_eq (y.ptrs_getElem? s h)
  · rw [if_neg h, if_neg h]
    exact Cells.read_eq (z.ptrs_getElem? (s - k) (by omega))

/-- Devices that all hold their words are the encoded devices. -/
theorem Held.eq_tuples {x : Tuple k size} {z : Tuple m size}
    (hz : ∀ j < m, z.block j = combine size k (A j) x.block)
    (h : Held A k m size x.block (fun _ => False) d) : d = ⟨x.ptrs, z.ptrs⟩ := by
  have hcell : ∀ (cells : Cells Block) (i : Nat) (b : Block), cells.read i = .ok b → cells[i]? = some (some b) := by
    intro c i b hread
    unfold Cells.read at hread
    split at hread
    · cases hread
    · cases hread
    · next v hv => rw [hv, Except.ok.inj hread]
  obtain ⟨data, coding⟩ := d
  have hdata : data = x.ptrs := by
    apply List.ext_getElem?
    intro s
    rcases Nat.lt_or_ge s k with hs | hs
    · have := h.good s (by omega) not_false
      rw [Devices.read, if_pos hs, word, if_pos hs] at this
      rw [hcell _ _ _ this, x.ptrs_getElem? s hs]
    · rw [List.getElem?_eq_none (h.data_length.trans_le hs),
        List.getElem?_eq_none (by simpa [Tuple.ptrs, x.length_eq] using hs)]
  have hcoding : coding = z.ptrs := by
    apply List.ext_getElem?
    intro j
    rcases Nat.lt_or_ge j m with hj | hj
    · have := h.good (k + j) (by omega) not_false
      rw [Devices.read, if_neg (by omega), word, if_neg (by omega), Nat.add_sub_cancel_left] at this
      rw [hcell _ _ _ this, z.ptrs_getElem? j hj, hz j hj]
    · rw [List.getElem?_eq_none (h.coding_length.trans_le hj),
        List.getElem?_eq_none (by simpa [Tuple.ptrs, z.length_eq] using hj)]
  rw [hdata, hcoding]

theorem matrixDecode_spec (hA : Mds A k m) (hk : 0 < k) (hm : 0 < m) (h8 : 8 ∣ size)
    (hone : ∀ i < k, A 0 i = 1) {x y : Tuple k size} {parity z : Tuple m size}
    (hparity : ∀ j < m, parity.block j = combine size k (A j) x.block) {erasures : List Nat}
    (hlt : ∀ e ∈ erasures, e < k + m) (hy : ∀ s < k, s ∉ erasures → y.block s = x.block s)
    (hz : ∀ j < m, k + j ∉ erasures → z.block j = parity.block j) (rowKOnes : Bool) :
    matrixDecode k m A rowKOnes erasures ⟨y.ptrs, z.ptrs⟩ size =
      .ok (if erasures.toFinset.card ≤ m then (0, ⟨x.ptrs, parity.ptrs⟩) else (-1, ⟨y.ptrs, z.ptrs⟩)) := by
  obtain ⟨hfew, hmany⟩ := erasuresToErased_spec hlt
  unfold matrixDecode
  split
  · next hcard =>
    obtain ⟨erased, he, hmarks⟩ := hfew hcard
    have hheld : Held A k m size x.block (· ∈ erasures.toFinset) ⟨y.ptrs, z.ptrs⟩ := by
      refine ⟨by simp [Tuple.ptrs, y.length_eq], by simp [Tuple.ptrs, z.length_eq], fun s hs hnot => ?_,
        fun s hs => ⟨_, read_tuples y z hs, ?_⟩⟩
      · rw [List.mem_toFinset] at hnot
        rw [read_tuples y z hs, word]
        by_cases hsk : s < k
        · rw [if_pos hsk, if_pos hsk, hy s hsk hnot]
        · have : k + (s - k) = s := by omega
          rw [if_neg hsk, if_neg hsk, hz (s - k) (by omega) (by rwa [this]), hparity _ (by omega)]
      · split
        · next hsk => exact y.length_block' s hsk
        · exact z.length_block' (s - k) (by omega)
    obtain ⟨d', hd', hall⟩ := decodeErased_spec hA hk hm x.length_block' h8 rowKOnes
      (fun _ => hone) hmarks (fun e he => Finset.mem_range.mpr (hlt e (List.mem_toFinset.mp he))) hcard hheld
    rw [he, ok_bind]
    simp only [hd', Held.eq_tuples hparity hall]
  · next hcard =>
    rw [hmany (by omega)]
    rfl

end Decoding

/-- With the matrix of the library, encoding and then losing any `m` of the `k + m` devices
loses nothing, and more losses are refused with the devices left as they are. -/
theorem matrixDecode_encode {k m size : Nat} (hk : 0 < k) (hm : 0 < m) (hkm : k + m ≤ 256)
    (h8 : 8 ∣ size) (x : Tuple k size) (coding : Tuple m size) :
    ∃ V : ByteMatrix m k, ∃ parity : Tuple m size, vandermondeCodingMatrix k m = .ok (some V) ∧
      jerasureMatrixEncode k m V.get x.ptrs coding.ptrs size = .ok parity.ptrs ∧
      ∀ erasures : List Nat, (∀ e ∈ erasures, e < k + m) → ∀ (y : Tuple k size) (z : Tuple m size),
        (∀ s < k, s ∉ erasures → y.block s = x.block s) →
        (∀ j < m, k + j ∉ erasures → z.block j = parity.block j) → ∀ rowKOnes : Bool,
        matrixDecode k m V.get rowKOnes erasures ⟨y.ptrs, z.ptrs⟩ size =
          .ok (if erasures.toFinset.card ≤ m then (0, ⟨x.ptrs, parity.ptrs⟩)
            else (-1, ⟨y.ptrs, z.ptrs⟩)) := by
  obtain ⟨V, hV, hmds, hone, -⟩ := vandermondeCodingMatrix_some hk hm hkm
  refine ⟨V, _, hV, jerasureMatrixEncode_any hmds hk h8 x coding, ?_⟩
  intro erasures hlt y z hy hz rowKOnes
  exact matrixDecode_spec hmds hk hm h8 hone (fun j hj => Tuple.block_of _ _ j hj) hlt hy hz rowKOnes

/-- Two data devices and one parity: the loss of the first data device is repaired. -/
theorem matrixDecode_encode_two :
    ∃ V : ByteMatrix 1 2, ∃ parity : Tuple 1 8, vandermondeCodingMatrix 2 1 = .ok (some V) ∧
      matrixDecode 2 1 V.get true [0] ⟨[some (List.replicate 8 0), some (List.replicate 8 7)], parity.ptrs⟩ 8 =
        .ok (0, ⟨[some (List.replicate 8 5), some (List.replicate 8 7)], parity.ptrs⟩) := by
  obtain ⟨V, parity, hV, -, hdecode⟩ := @matrixDecode_encode 2 1 8 (by decide) (by decide)
    (by decide) (by decide) ⟨[List.replicate 8 5, List.replicate 8 7], rfl, by decide⟩
    ⟨[List.replicate 8 0], rfl, by decide⟩
  refine ⟨V, parity, hV, hdecode [0] (by decide)
    ⟨[List.replicate 8 0, List.replicate 8 7], rfl, by decide⟩ parity (fun s hs hnot => ?_) (fun _ _ _ => rfl) true⟩
  have hs1 : s = 1 := by
    simp only [List.mem_singleton] at hnot
    omega
  rw [hs1]
  rfl

section Single

variable {k size : Nat} {A : Nat → Nat → Byte}

theorem jerasureMatrixDotprod_congr {row : Nat → Byte} {sptr sptr' : Nat → Except Fault Block}
    (h : ∀ i < k, sptr i = sptr' i) (dptr : Block) :
    jerasureMatrixDotprod k row sptr dptr size = jerasureMatrixDotprod k row sptr' dptr size := by
  have hones : ∀ i ∈ List.range k, ∀ st, dotprodOnes row sptr size st i = dotprodOnes row sptr' size st i := by
    intro i hi st
    simp only [dotprodOnes, h i (List.mem_range.mp hi)]
  have hfactors : ∀ i ∈ List.range k, ∀ st,
      dotprodFactors row sptr size st i = dotprodFactors row sptr' size st i := by
    intro i hi st
    simp only [dotprodFactors, h i (List.mem_range.mp hi)]
  simp only [jerasureMatrixDotprod, Loops.foldlM_congr hones, Loops.foldlM_congr hfactors]

/-- Turns over devices that are not erased do nothing. -/
theorem decodeLoop_skip {erased : List Bool} {last : Nat} (h : ∀ i < last, erased.getD i false = false)
    (decoding : Option (ByteMatrix k k × List Nat)) (st : Nat × Devices) :
    (List.range last).foldlM (decodeTurn k erased decoding size) st = .ok st := by
  induction last with
  | zero => rfl
  | succ last ih =>
    have hturn : decodeTurn k erased decoding size st last = .ok st := by
      unfold decodeTurn
      rw [h last (by omega), if_neg (by simp)]
    rw [List.range_succ, List.foldlM_append, ih (fun i hi => h i (by omega)), ok_bind, List.foldlM_cons,
      hturn, ok_bind, List.foldlM_nil, pure_eq_ok]

theorem marks_single {e : Nat} (he : e < k + 1) :
    Marks (k + 1) {e} ((List.replicate (k + 1) false).set e true) := by
  have hstart : Marks (k + 1) ∅ (List.replicate (k + 1) false) :=
    ⟨by simp, fun s hs => by simp [hs]⟩
  exact hstart.insert he

/-- What the client asks for, with one parity, a row of ones and one erasure, is what the
model of its decoder computes. -/
theorem matrixDecode_single (k : Nat) (A : Nat → Nat → Byte) (e : Nat) (data coding : Cells Block)
    (size : Nat) : matrixDecode k 1 A true [e] ⟨data, coding⟩ size =
      (fun p => (0, ⟨p.1, p.2⟩)) <$> jerasureMatrixDecode k A e data coding size := by
  by_cases he : e < k + 1
  · have hmarks := marks_single he
    have hstart : erasuresToErased k 1 [e] = .ok (some ((List.replicate (k + 1) false).set e true)) := by
      simp [erasuresToErased, eraseAll, he]
    rw [matrixDecode, hstart, ok_bind]
    generalize (List.replicate (k + 1) false).set e true = erased at hmarks
    obtain ⟨hedd, hlost⟩ := lastLost_cases (m := 1) hmarks
    have hpar : parityLost k true erased = .ok (decide (k = e)) := by
      simp [parityLost, hmarks.mark k (by omega)]
    simp only [decodeErased, hpar, ok_bind, hedd]
    rcases hlost with ⟨hnone, hnil⟩ | ⟨last, hlt, hget, hin, -⟩
    · -- The parity is erased, and encoded again.
      have hek : e = k := by
        by_contra hne
        exact hnone e (by omega) (Finset.mem_singleton_self e)
      have hleft : left k {e} 0 = 0 := by
        by_contra h0
        obtain ⟨s, hs, hmem, -⟩ := left_pos.mp (Nat.pos_of_ne_zero h0)
        exact hnone s hs hmem
      subst hek
      have hskip : ∀ i < e, erased.getD i false = false := by
        intro i hi
        rw [hmarks.getD (by omega)]
        simp
        omega
      have hturn : erased.getD (e + 0) false = true := by
        rw [hmarks.getD (by omega)]
        simp
      simp only [hleft, decide_true, if_true, lt_irrefl, false_and, or_self, Nat.not_lt_zero, if_false,
        decodePasses, decodeLoop_skip hskip, ok_bind, parityTurn, List.range_one, List.foldlM_cons,
        List.foldlM_nil, encodeTurn, hturn]
      have hdot : ∀ dptr, jerasureMatrixDotprod e (A 0) (fun i => if id i < e then data.read (id i)
          else coding.read (id i - e)) dptr size = jerasureMatrixDotprod e (A 0) data.read dptr size :=
        jerasureMatrixDotprod_congr (fun i hi => if_pos hi)
      simp only [matrixDotprod, Devices.read, Devices.write, hdot, jerasureMatrixDecode, Nat.add_zero,
        lt_irrefl, if_false, if_true, Nat.sub_self]
      cases coding.read 0 with
      | error f => rfl
      | ok dptr =>
        simp only [ok_bind]
        cases jerasureMatrixDotprod e (A 0) data.read dptr size with
        | error f => rfl
        | ok b =>
          simp only [ok_bind]
          cases coding.write 0 b <;> rfl
    · obtain rfl : last = e := Finset.mem_singleton.mp hin
      have hleft : left k {last} 0 = 1 := by
        rw [left, Finset.card_eq_one]
        refine ⟨last, ?_⟩
        ext s
        simp only [Finset.mem_filter, Finset.mem_range, Finset.mem_singleton]
        omega
      have hskip : ∀ i < last, erased.getD i false = false := by
        intro i hi
        rw [hmarks.getD (by omega)]
        simp
        omega
      have hturn : erased.getD (k + 0) false = false := by
        rw [hmarks.getD (by omega)]
        simp
        omega
      have hne : ¬ k = last := by omega
      simp only [hleft, hne, decide_false, Bool.false_eq_true, and_false, lt_irrefl, or_self, if_false,
        hget, decodePasses, decodeLoop_skip hskip, ok_bind, parityTurn, Nat.zero_lt_one, if_true,
        List.range_one, List.foldlM_cons, List.foldlM_nil, encodeTurn, hturn]
      simp only [matrixDotprod, Devices.read, Devices.write, jerasureMatrixDecode, hlt, if_true]
      cases data.read last with
      | error f => rfl
      | ok dptr =>
        simp only [ok_bind]
        cases jerasureMatrixDotprod k (A 0) (fun i => if (if i < last then i else i + 1) < k then
            data.read (if i < last then i else i + 1)
          else coding.read ((if i < last then i else i + 1) - k)) dptr size with
        | error f => rfl
        | ok b =>
          simp only [ok_bind]
          cases data.write last b <;> rfl
  · have hstart : erasuresToErased k 1 [e] = .error .outOfBounds := by
      simp [erasuresToErased, eraseAll, he]
    rw [matrixDecode, hstart, jerasureMatrixDecode, if_neg (by omega), if_neg (by omega)]
    rfl

end Single

end OptLrc.Erasures
