import OptLrc.Decode
import OptLrc.Inversion

namespace OptLrc.Coding

open OptLrc.Galois OptLrc.Memory OptLrc.Jerasure OptLrc.Distance OptLrc.Codes OptLrc.Independence

/-- The `k` data devices and the coding devices, numbered from `k`. -/
structure Devices where
  data : Cells Block
  coding : Cells Block
  deriving DecidableEq

namespace Devices

def read (k : Nat) (d : Devices) (id : Nat) : Except Fault Block :=
  if id < k then d.data.read id else d.coding.read (id - k)

def write (k : Nat) (d : Devices) (id : Nat) (b : Block) : Except Fault Devices :=
  if id < k then do return { d with data := ← d.data.write id b }
  else do return { d with coding := ← d.coding.write (id - k) b }

end Devices

/-- `jerasure_matrix_dotprod(k, 8, row, src_ids, dest, ...)`: no source is the destination. -/
def matrixDotprod (k : Nat) (row : Nat → Byte) (srcIds : Nat → Nat) (dest : Nat) (d : Devices)
    (size : Nat) : Except Fault Devices := do
  let dptr ← d.read k dest
  d.write k dest (← jerasureMatrixDotprod k row (fun i => d.read k (srcIds i)) dptr size)

section Dotprod

variable {P : Nat → Prop} {f : Bool × Block → Nat → Except Fault (Bool × Block)} {a b : Block}

/-- A pass that only writes at its first source depends on no earlier contents. -/
theorem foldlM_start {l : List Nat} (hskip : ∀ i ∈ l, ¬ P i → ∀ st, f st i = .ok st)
    (huse : ∀ i ∈ l, P i → f (false, a) i = f (false, b) i) (h : ∃ i ∈ l, P i) :
    l.foldlM f (false, a) = l.foldlM f (false, b) := by
  induction l with
  | nil => simp at h
  | cons i l ih =>
    rw [List.foldlM_cons, List.foldlM_cons]
    by_cases hi : P i
    · rw [huse i List.mem_cons_self hi]
    · obtain ⟨j, hj, hP⟩ := h
      have hjl : j ∈ l := by
        rcases List.mem_cons.mp hj with rfl | hj
        · exact absurd hP hi
        · exact hj
      rw [hskip i List.mem_cons_self hi, hskip i List.mem_cons_self hi, ok_bind, ok_bind]
      exact ih (fun t ht => hskip t (List.mem_cons_of_mem i ht))
        (fun t ht => huse t (List.mem_cons_of_mem i ht)) ⟨j, hjl, hP⟩

theorem foldlM_skip {l : List Nat} {st : Bool × Block} (hskip : ∀ i ∈ l, f st i = .ok st) :
    l.foldlM f st = .ok st := by
  induction l with
  | nil => rfl
  | cons i l ih =>
    rw [List.foldlM_cons, hskip i List.mem_cons_self, ok_bind]
    exact ih (fun t ht => hskip t (List.mem_cons_of_mem i ht))

variable {k size : Nat} {row : Nat → Byte} {sptr : Nat → Except Fault Block} {src : Nat → Block}

/-- What the destination held before is lost, unless every coefficient is zero. -/
theorem jerasureMatrixDotprod_overwrites (hs : ∀ i < k, sptr i = .ok (src i))
    (hl : ∀ i < k, (src i).length = size) (hrow : ∃ i < k, row i ≠ 0) (ha : a.length = size)
    (hb : b.length = size) :
    jerasureMatrixDotprod k row sptr a size = jerasureMatrixDotprod k row sptr b size := by
  have hones : ∀ i, row i ≠ 1 → ∀ st, dotprodOnes row sptr size st i = .ok st := by
    intro i hi st
    simp [dotprodOnes, hi]
  obtain ⟨j, hj, hne⟩ := hrow
  unfold jerasureMatrixDotprod
  by_cases hone : ∃ i ∈ List.range k, row i = 1
  · rw [foldlM_start (P := fun i => row i = 1) (a := a) (b := b) (fun i _ => hones i) _ hone]
    intro i hi h1
    have hi := List.mem_range.mp hi
    simp [dotprodOnes, h1, hs i hi, memcpy_eq _ _ _ ha (hl i hi), memcpy_eq _ _ _ hb (hl i hi)]
  · push Not at hone
    have hskip : ∀ c : Block, (List.range k).foldlM (dotprodOnes row sptr size) (false, c) = .ok (false, c) :=
      fun c => foldlM_skip (fun i hi => hones i (hone i hi) _)
    rw [hskip, hskip, ok_bind, ok_bind]
    rw [foldlM_start (P := fun i => row i ≠ 0 ∧ row i ≠ 1) (a := a) (b := b)]
    · intro i _ hi st
      simp [dotprodFactors, hi]
    · intro i hi hP
      have hi := List.mem_range.mp hi
      have hread : readRange (src i) 0 size = .ok (src i) := hl i hi ▸ readRange_all (src i)
      have hwrite : ∀ c : Block, c.length = size → writeRange c 0 ((src i).map (galoisSingleMultiply (row i))) =
          .ok ((src i).map (galoisSingleMultiply (row i))) :=
        fun c hc => writeRange_all _ _ (by rw [List.length_map, hl i hi, hc])
      simp [dotprodFactors, hP, hs i hi, galoisW08RegionMultiply, hread, hwrite a ha, hwrite b hb]
    · exact ⟨j, List.mem_range.mpr hj, hne, hone j (List.mem_range.mpr hj)⟩

theorem jerasureMatrixDotprod_any (h8 : 8 ∣ size) (hs : ∀ i < k, sptr i = .ok (src i))
    (hl : ∀ i < k, (src i).length = size) (hrow : ∃ i < k, row i ≠ 0) (ha : a.length = size) :
    jerasureMatrixDotprod k row sptr a size = .ok (combine size k row src) := by
  rw [jerasureMatrixDotprod_overwrites hs hl hrow ha (length_zeroBlock size)]
  exact jerasureMatrixDotprod_eq h8 hs hl

end Dotprod

section Words

/-- The contents of device `s` when the data devices hold `src`. -/
def word (A : Nat → Nat → Byte) (k size : Nat) (src : Nat → Block) (s : Nat) : Block :=
  if s < k then src s else combine size k (A (s - k)) src

variable {A : Nat → Nat → Byte} {k m size : Nat} {src : Nat → Block}

theorem length_word (hl : ∀ i < k, (src i).length = size) (s : Nat) :
    (word A k size src s).length = size := by
  unfold word
  split
  · next h => exact hl s h
  · exact length_combine size k _ src hl

theorem getD_word (hl : ∀ i < k, (src i).length = size) (s t : Nat) :
    (word A k size src s).getD t 0 = symbol A k (fun i => (src i).getD t 0) s := by
  unfold word symbol
  split
  · rfl
  · exact getD_combine size k _ src hl t

/-- Every device holds its word but the bad ones, which hold some block. -/
structure Held (A : Nat → Nat → Byte) (k m size : Nat) (src : Nat → Block) (bad : Nat → Prop)
    (d : Devices) : Prop where
  data_length : d.data.length = k
  coding_length : d.coding.length = m
  good : ∀ s < k + m, ¬ bad s → d.read k s = .ok (word A k size src s)
  lost : ∀ s < k + m, ∃ b, d.read k s = .ok b ∧ b.length = size

variable {bad : Nat → Prop} {d : Devices}

theorem Held.congr (h : Held A k m size src bad d) {bad' : Nat → Prop}
    (hbad : ∀ s < k + m, bad s → bad' s) : Held A k m size src bad' d :=
  ⟨h.data_length, h.coding_length, fun s hs hnot => h.good s hs (fun hb => hnot (hbad s hs hb)), h.lost⟩

theorem Held.write (h : Held A k m size src bad d) (hl : ∀ i < k, (src i).length = size) {dest : Nat}
    (hdest : dest < k + m) : ∃ d', d.write k dest (word A k size src dest) = .ok d' ∧
      Held A k m size src (fun s => bad s ∧ s ≠ dest) d' := by
  have hdata := h.data_length
  have hcoding := h.coding_length
  have hread : ∀ c : Cells Block, ∀ i j b, j < c.length →
      Cells.read (c.set j (some b)) i = if i = j then .ok b else c.read i := by
    intro c i j b hj
    unfold Cells.read
    by_cases hij : i = j
    · subst i
      rw [List.getElem?_set_self hj, if_pos rfl]
    · rw [List.getElem?_set_ne (Ne.symm hij), if_neg hij]
  obtain ⟨d', hd', hlen, hlen', hget⟩ : ∃ d', d.write k dest (word A k size src dest) = .ok d' ∧
      d'.data.length = k ∧ d'.coding.length = m ∧
      ∀ s, d'.read k s = if s = dest then .ok (word A k size src dest) else d.read k s := by
    unfold Devices.write
    by_cases hk : dest < k
    · rw [if_pos hk, Cells.write_eq (c := d.data) _ (by omega)]
      refine ⟨_, rfl, by simpa using hdata, hcoding, fun s => ?_⟩
      unfold Devices.read
      rw [hread _ _ _ _ (by omega)]
      by_cases hs : s = dest <;> simp [hs, hk]
    · rw [if_neg hk, Cells.write_eq (c := d.coding) _ (by omega)]
      refine ⟨_, rfl, hdata, by simpa using hcoding, fun s => ?_⟩
      unfold Devices.read
      rw [hread _ _ _ _ (by omega)]
      by_cases hsk : s < k
      · simp [hsk, show s ≠ dest by omega]
      · simp [hsk, show s - k = dest - k ↔ s = dest by omega]
  refine ⟨d', hd', hlen, hlen', fun s hs hnot => ?_, fun s hs => ?_⟩
  · rw [hget]
    by_cases hsd : s = dest
    · rw [if_pos hsd, hsd]
    · rw [if_neg hsd]
      exact h.good s hs (fun hb => hnot ⟨hb, hsd⟩)
  · rw [hget]
    by_cases hsd : s = dest
    · exact ⟨_, if_pos hsd, length_word hl dest⟩
    · rw [if_neg hsd]
      exact h.lost s hs

/-- A dot product that gives the destination its symbol from good devices restores it. -/
theorem matrixDotprod_spec (h : Held A k m size src bad d) (hl : ∀ i < k, (src i).length = size)
    (h8 : 8 ∣ size) (row : Nat → Byte) (srcIds : Nat → Nat) {dest : Nat} (hdest : dest < k + m)
    (hsrc : ∀ i < k, srcIds i < k + m ∧ ¬ bad (srcIds i)) (hrow : ∃ i < k, row i ≠ 0)
    (hval : ∀ c, dot k row (fun i => symbol A k c (srcIds i)) = symbol A k c dest) :
    ∃ d', matrixDotprod k row srcIds dest d size = .ok d' ∧
      Held A k m size src (fun s => bad s ∧ s ≠ dest) d' := by
  obtain ⟨b, hb, hblen⟩ := h.lost dest hdest
  have hcombine : combine size k row (fun i => word A k size src (srcIds i)) = word A k size src dest := by
    have hlen : ∀ i < k, (word A k size src (srcIds i)).length = size := fun i _ => length_word hl _
    apply block_ext (by rw [length_combine _ _ _ _ hlen, length_word hl])
    intro t
    rw [getD_combine _ _ _ _ hlen, getD_word hl, ← hval]
    apply Finset.sum_congr rfl
    intro i _
    rw [getD_word hl]
  obtain ⟨d', hd', hheld⟩ := h.write hl hdest
  refine ⟨d', ?_, hheld⟩
  rw [matrixDotprod, hb, ok_bind, jerasureMatrixDotprod_any h8
    (fun i hi => h.good _ (hsrc i hi).1 (hsrc i hi).2) (fun i _ => length_word hl _) hrow hblen,
    ok_bind, hcombine, hd']

end Words

end OptLrc.Coding
