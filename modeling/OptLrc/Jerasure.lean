import OptLrc.Galois
import OptLrc.Memory

namespace OptLrc.Jerasure

open OptLrc.Galois OptLrc.Memory

abbrev Block := List Byte

def zeroBlock (size : Nat) : Block := List.replicate size 0

def wordEnd (nbytes : Nat) : Nat := 8 * ((nbytes + 7) / 8)

def memcpy (dst src : Block) (size : Nat) : Except Fault Block := do
  writeRange dst 0 (← readRange src 0 size)

/-- Words of eight bytes are added, so a ragged end reads and writes past `nbytes`. -/
def galoisRegionXor (r1 r2 : Block) (nbytes : Nat) : Except Fault Block := do
  let a ← readRange r1 0 (wordEnd nbytes)
  let b ← readRange r2 0 (wordEnd nbytes)
  writeRange r2 0 (List.zipWith (· + ·) a b)

def galoisW08RegionMultiply (region : Block) (multby : Byte) (nbytes : Nat) (r2 : Block)
    (add : Bool) : Except Fault Block := do
  if add then
    let a ← readRange region 0 (wordEnd nbytes)
    let b ← readRange r2 0 (wordEnd nbytes)
    writeRange r2 0 (List.zipWith (· + ·) (a.map (galoisSingleMultiply multby)) b)
  else
    let a ← readRange region 0 nbytes
    writeRange r2 0 (a.map (galoisSingleMultiply multby))

/-- The first pass of `jerasure_matrix_dotprod`: sources whose coefficient is one. -/
def dotprodOnes (row : Nat → Byte) (sptr : Nat → Except Fault Block) (size : Nat)
    (st : Bool × Block) (i : Nat) : Except Fault (Bool × Block) := do
  if row i = 1 then
    let s ← sptr i
    if st.1 then return (true, ← galoisRegionXor s st.2 size)
    else return (true, ← memcpy st.2 s size)
  else return st

def dotprodFactors (row : Nat → Byte) (sptr : Nat → Except Fault Block) (size : Nat)
    (st : Bool × Block) (i : Nat) : Except Fault (Bool × Block) := do
  if row i ≠ 0 ∧ row i ≠ 1 then
    return (true, ← galoisW08RegionMultiply (← sptr i) (row i) size st.2 st.1)
  else return st

def jerasureMatrixDotprod (k : Nat) (row : Nat → Byte) (sptr : Nat → Except Fault Block)
    (dptr : Block) (size : Nat) : Except Fault Block := do
  let st ← (List.range k).foldlM (dotprodOnes row sptr size) (false, dptr)
  let st ← (List.range k).foldlM (dotprodFactors row sptr size) st
  return st.2

def jerasureMatrixEncode (k m : Nat) (matrix : Nat → Nat → Byte) (dataPtrs codingPtrs : Cells Block)
    (size : Nat) : Except Fault (Cells Block) :=
  (List.range m).foldlM (fun coding i => do
    coding.write i (← jerasureMatrixDotprod k (matrix i) dataPtrs.read (← coding.read i) size))
    codingPtrs

/-- `jerasure_matrix_decode` with one coding device, one erasure and `row_k_ones` set: an
erased data device is recovered with the parity row, an erased coding device is encoded
again. The decoding matrix is built only for two erasures. -/
def jerasureMatrixDecode (k : Nat) (matrix : Nat → Nat → Byte) (erased : Nat)
    (dataPtrs codingPtrs : Cells Block) (size : Nat) :
    Except Fault (Cells Block × Cells Block) := do
  if erased < k then
    let source (i : Nat) : Except Fault Block :=
      let id := if i < erased then i else i + 1
      if id < k then dataPtrs.read id else codingPtrs.read (id - k)
    let d ← jerasureMatrixDotprod k (matrix 0) source (← dataPtrs.read erased) size
    return (← dataPtrs.write erased d, codingPtrs)
  else if erased = k then
    let d ← jerasureMatrixDotprod k (matrix 0) dataPtrs.read (← codingPtrs.read 0) size
    return (dataPtrs, ← codingPtrs.write 0 d)
  else throw .outOfBounds

/-- `reed_sol_vandermonde_coding_matrix(k, m, 8)`, given by its entries: the arguments are
`k`, `m`, a row and a column. -/
abbrev CodingMatrix := Nat → Nat → Nat → Nat → Byte

/-- The last step but one of `reed_sol_big_vandermonde_distribution_matrix` makes the first
coding row all ones. -/
def FirstRowOnes (V : CodingMatrix) : Prop :=
  ∀ k m j, 0 < m → k + m ≤ 256 → j < k → V k m 0 j = 1

def calculateParityPtrsRs (V : CodingMatrix) (dataPtrs : Cells Block) (k : Nat)
    (codingPtrs : Cells Block) (m size : Nat) : Except Fault (Cells Block) :=
  jerasureMatrixEncode k m (V k m) dataPtrs codingPtrs size

def decodingParityPtrsLrc (V : CodingMatrix) (dataPtrs : Cells Block) (k : Nat)
    (codingPtrs : Cells Block) (size erased : Nat) : Except Fault (Cells Block × Cells Block) :=
  jerasureMatrixDecode k (V k 1) erased dataPtrs codingPtrs size

def addBlock (a b : Block) : Block := List.zipWith (· + ·) a b

def scaleBlock (c : Byte) (b : Block) : Block := b.map (c * ·)

/-- What a dot product computes: each byte is the combination of the bytes at its place. -/
def combine (size k : Nat) (row : Nat → Byte) (src : Nat → Block) : Block :=
  (List.range k).foldl (fun acc i => addBlock acc (scaleBlock (row i) (src i))) (zeroBlock size)

@[simp] theorem length_zeroBlock (size : Nat) : (zeroBlock size).length = size := by
  simp [zeroBlock]

@[simp] theorem length_addBlock (a b : Block) : (addBlock a b).length = min a.length b.length := by
  simp [addBlock]

@[simp] theorem length_scaleBlock (c : Byte) (b : Block) : (scaleBlock c b).length = b.length := by
  simp [scaleBlock]

theorem addBlock_zero (b : Block) (size : Nat) (h : b.length = size) :
    addBlock b (zeroBlock size) = b := by
  subst h
  induction b with
  | nil => rfl
  | cons x b ih =>
    change (x + 0) :: addBlock b (zeroBlock b.length) = _
    rw [ih, add_zero]

theorem addBlock_comm (a b : Block) : addBlock a b = addBlock b a :=
  List.zipWith_comm_of_comm (fun x y => add_comm x y)

theorem zero_addBlock (b : Block) (size : Nat) (h : b.length = size) :
    addBlock (zeroBlock size) b = b := by
  rw [addBlock_comm, addBlock_zero b size h]

theorem scaleBlock_one (b : Block) : scaleBlock 1 b = b := by
  simp [scaleBlock]

theorem scaleBlock_zero (b : Block) : scaleBlock 0 b = zeroBlock b.length := by
  simp [scaleBlock, zeroBlock, List.map_const']

theorem wordEnd_of_dvd (size : Nat) (h : 8 ∣ size) : wordEnd size = size := by
  obtain ⟨m, rfl⟩ := h
  unfold wordEnd
  omega

theorem readRange_all {α : Type} (b : List α) : readRange b 0 b.length = .ok b := by
  simp [readRange]

theorem writeRange_all {α : Type} (b src : List α) (h : src.length = b.length) :
    writeRange b 0 src = .ok src := by
  simp [writeRange, h]

theorem memcpy_eq (dst src : Block) (size : Nat) (hd : dst.length = size) (hs : src.length = size) :
    memcpy dst src size = .ok src := by
  subst hs
  rw [memcpy, readRange_all]
  exact writeRange_all dst src hd.symm

theorem galoisRegionXor_eq (a b : Block) (size : Nat) (h8 : 8 ∣ size) (ha : a.length = size)
    (hb : b.length = size) : galoisRegionXor a b size = .ok (addBlock b a) := by
  rw [galoisRegionXor, wordEnd_of_dvd size h8]
  nth_rewrite 1 [← ha]
  nth_rewrite 1 [← hb]
  rw [readRange_all, readRange_all]
  refine (writeRange_all b (addBlock a b) (by simp [ha, hb])).trans ?_
  rw [addBlock_comm]

theorem galoisW08RegionMultiply_eq (a b : Block) (c : Byte) (size : Nat) (add : Bool) (h8 : 8 ∣ size)
    (ha : a.length = size) (hb : b.length = size) (hz : add = false → b = zeroBlock size) :
    galoisW08RegionMultiply a c size b add = .ok (addBlock b (scaleBlock c a)) := by
  have hm : a.map (galoisSingleMultiply c) = scaleBlock c a :=
    List.map_congr_left (fun x _ => galoisSingleMultiply_eq c x)
  cases add with
  | true =>
    simp only [galoisW08RegionMultiply, if_true, wordEnd_of_dvd size h8]
    nth_rewrite 1 [← ha]
    nth_rewrite 1 [← hb]
    rw [readRange_all, readRange_all]
    refine (writeRange_all b _ (by simp [ha, hb])).trans ?_
    rw [hm, addBlock_comm]
    rfl
  | false =>
    simp only [galoisW08RegionMultiply, Bool.false_eq_true, if_false]
    nth_rewrite 1 [← ha]
    rw [readRange_all]
    refine (writeRange_all b _ (by simp [ha, hb])).trans ?_
    rw [hm, hz rfl, zero_addBlock _ _ (by simpa using ha)]

section Dotprod

variable (row : Nat → Byte) {sptr : Nat → Except Fault Block} {src : Nat → Block} {size : Nat}

/-- The destination starts as a zero block, so copying into it and adding to it agree. -/
def Fresh (size : Nat) (st : Bool × Block) : Prop :=
  st.2.length = size ∧ (st.1 = false → st.2 = zeroBlock size)

theorem dotprodOnes_eq (h8 : 8 ∣ size) (i : Nat) (hs : sptr i = .ok (src i))
    (hl : (src i).length = size) (st : Bool × Block) (hst : Fresh size st) :
    ∃ init, dotprodOnes row sptr size st i =
        .ok (init, addBlock st.2 (scaleBlock (if row i = 1 then 1 else 0) (src i))) ∧
      Fresh size (init, addBlock st.2 (scaleBlock (if row i = 1 then 1 else 0) (src i))) := by
  obtain ⟨init, d⟩ := st
  obtain ⟨hd, hz⟩ := hst
  simp only at hd hz
  unfold dotprodOnes
  by_cases hr : row i = 1
  · refine ⟨true, ?_, by simp [hr, hd, hl], by simp⟩
    cases init with
    | true =>
      simp only [hr, if_true, hs, scaleBlock_one]
      exact congrArg (Except.map (fun b => (true, b))) (galoisRegionXor_eq (src i) d size h8 hl hd)
    | false =>
      simp only [hr, if_true, hs, scaleBlock_one, hz rfl, zero_addBlock _ _ hl]
      exact congrArg (Except.map (fun b => (true, b)))
        (memcpy_eq (zeroBlock size) (src i) size (by simp) hl)
  · refine ⟨init, ?_, ?_⟩
    · simp only [hr, if_false, scaleBlock_zero, hl, addBlock_zero d size hd]
      rfl
    · simpa only [hr, if_false, scaleBlock_zero, hl, addBlock_zero d size hd] using ⟨hd, hz⟩

theorem dotprodFactors_eq (h8 : 8 ∣ size) (i : Nat) (hs : sptr i = .ok (src i))
    (hl : (src i).length = size) (st : Bool × Block) (hst : Fresh size st) :
    ∃ init, dotprodFactors row sptr size st i =
        .ok (init, addBlock st.2 (scaleBlock (if row i = 1 then 0 else row i) (src i))) ∧
      Fresh size (init, addBlock st.2 (scaleBlock (if row i = 1 then 0 else row i) (src i))) := by
  obtain ⟨init, d⟩ := st
  obtain ⟨hd, hz⟩ := hst
  simp only at hd hz
  unfold dotprodFactors
  by_cases hr : row i ≠ 0 ∧ row i ≠ 1
  · refine ⟨true, ?_, by simp [hr.2, hd, hl], by simp⟩
    simp only [hr, ne_eq, not_false_eq_true, and_self, if_true, hs, if_false]
    exact congrArg (Except.map (fun b => (true, b)))
      (galoisW08RegionMultiply_eq (src i) d (row i) size init h8 hl hd hz)
  · have hc : (if row i = 1 then 0 else row i) = 0 := by
      by_cases h1 : row i = 1
      · simp [h1]
      · simp only [h1, if_false]
        by_contra h0
        exact hr ⟨h0, h1⟩
    refine ⟨init, ?_, ?_⟩
    · simp only [hr, if_false, hc, scaleBlock_zero, hl, addBlock_zero d size hd]
      rfl
    · simpa only [hc, scaleBlock_zero, hl, addBlock_zero d size hd] using ⟨hd, hz⟩

end Dotprod

theorem getD_addBlock (a b : Block) (h : a.length = b.length) (t : Nat) :
    (addBlock a b).getD t 0 = a.getD t 0 + b.getD t 0 := by
  simp only [addBlock, List.getD_eq_getElem?_getD, List.getElem?_zipWith]
  by_cases ht : t < a.length
  · rw [List.getElem?_eq_getElem ht, List.getElem?_eq_getElem (h ▸ ht)]
    rfl
  · rw [List.getElem?_eq_none (by omega), List.getElem?_eq_none (by omega)]
    exact (add_zero 0).symm

theorem getD_scaleBlock (c : Byte) (b : Block) (t : Nat) :
    (scaleBlock c b).getD t 0 = c * b.getD t 0 := by
  simp only [scaleBlock, List.getD_eq_getElem?_getD, List.getElem?_map]
  cases b[t]? with
  | none => exact (mul_zero c).symm
  | some x => rfl

theorem getD_zeroBlock (size t : Nat) : (zeroBlock size).getD t 0 = 0 := by
  simp only [zeroBlock, List.getD_eq_getElem?_getD, List.getElem?_replicate]
  split <;> rfl

theorem block_ext {a b : Block} (hl : a.length = b.length) (h : ∀ t, a.getD t 0 = b.getD t 0) :
    a = b := by
  refine List.ext_getElem hl (fun t ht _ => ?_)
  have := h t
  simp only [List.getD_eq_getElem?_getD] at this
  rwa [List.getElem?_eq_getElem ht, List.getElem?_eq_getElem (hl ▸ ht)] at this

/-- A combination accumulated onto a block that is already there. -/
def accumulate (k : Nat) (row : Nat → Byte) (src : Nat → Block) (acc : Block) : Block :=
  (List.range k).foldl (fun acc i => addBlock acc (scaleBlock (row i) (src i))) acc

theorem accumulate_succ (k : Nat) (row : Nat → Byte) (src : Nat → Block) (acc : Block) :
    accumulate (k + 1) row src acc =
      addBlock (accumulate k row src acc) (scaleBlock (row k) (src k)) := by
  simp [accumulate, List.range_succ]

theorem accumulate_spec (size k : Nat) (row : Nat → Byte) (src : Nat → Block) (acc : Block)
    (ha : acc.length = size) (hl : ∀ i < k, (src i).length = size) :
    (accumulate k row src acc).length = size ∧
      ∀ t, (accumulate k row src acc).getD t 0 =
        acc.getD t 0 + ∑ i ∈ Finset.range k, row i * (src i).getD t 0 := by
  induction k with
  | zero => exact ⟨ha, fun t => by simp [accumulate]⟩
  | succ k ih =>
    obtain ⟨hk, ht⟩ := ih (fun i hi => hl i (by omega))
    have hs : (scaleBlock (row k) (src k)).length = size := by simpa using hl k (by omega)
    rw [accumulate_succ]
    refine ⟨by simp [hk, hs], fun t => ?_⟩
    rw [getD_addBlock _ _ (by rw [hk, hs]), ht, getD_scaleBlock, Finset.sum_range_succ, add_assoc]

theorem length_combine (size k : Nat) (row : Nat → Byte) (src : Nat → Block)
    (hl : ∀ i < k, (src i).length = size) : (combine size k row src).length = size :=
  (accumulate_spec size k row src (zeroBlock size) (by simp) hl).1

theorem getD_combine (size k : Nat) (row : Nat → Byte) (src : Nat → Block)
    (hl : ∀ i < k, (src i).length = size) (t : Nat) :
    (combine size k row src).getD t 0 = ∑ i ∈ Finset.range k, row i * (src i).getD t 0 := by
  refine ((accumulate_spec size k row src (zeroBlock size) (by simp) hl).2 t).trans ?_
  rw [getD_zeroBlock, zero_add]

/-- A pass whose every step adds a multiple of its source adds the whole combination. -/
theorem foldlM_accumulate {size : Nat} {src : Nat → Block}
    {step : Bool × Block → Nat → Except Fault (Bool × Block)} (row : Nat → Byte) (k : Nat)
    (hl : ∀ i < k, (src i).length = size)
    (hstep : ∀ i < k, ∀ st, Fresh size st → ∃ init,
      step st i = .ok (init, addBlock st.2 (scaleBlock (row i) (src i))) ∧
        Fresh size (init, addBlock st.2 (scaleBlock (row i) (src i))))
    (st : Bool × Block) (hst : Fresh size st) :
    ∃ init, (List.range k).foldlM step st = .ok (init, accumulate k row src st.2) ∧
      Fresh size (init, accumulate k row src st.2) := by
  induction k with
  | zero => exact ⟨st.1, rfl, hst⟩
  | succ k ih =>
    obtain ⟨init, he, hf⟩ := ih (fun i hi => hl i (by omega)) (fun i hi => hstep i (by omega))
    obtain ⟨init', he', hf'⟩ := hstep k (by omega) _ hf
    refine ⟨init', ?_, by rwa [accumulate_succ]⟩
    rw [List.range_succ, List.foldlM_append, he, accumulate_succ]
    exact (bind_pure _).trans he'

theorem jerasureMatrixDotprod_eq {k size : Nat} {row : Nat → Byte}
    {sptr : Nat → Except Fault Block} {src : Nat → Block} (h8 : 8 ∣ size)
    (hs : ∀ i < k, sptr i = .ok (src i)) (hl : ∀ i < k, (src i).length = size) :
    jerasureMatrixDotprod k row sptr (zeroBlock size) size = .ok (combine size k row src) := by
  obtain ⟨init, he, hf⟩ := foldlM_accumulate (fun i => if row i = 1 then 1 else 0) k hl
    (fun i hi st hst => dotprodOnes_eq row h8 i (hs i hi) (hl i hi) st hst)
    (false, zeroBlock size) ⟨by simp, fun _ => rfl⟩
  obtain ⟨init', he', hf'⟩ := foldlM_accumulate (fun i => if row i = 1 then 0 else row i) k hl
    (fun i hi st hst => dotprodFactors_eq row h8 i (hs i hi) (hl i hi) st hst) _ hf
  have hb : accumulate k (fun i => if row i = 1 then 0 else row i) src
      (accumulate k (fun i => if row i = 1 then 1 else 0) src (zeroBlock size)) =
      combine size k row src := by
    have h1 := accumulate_spec size k (fun i => if row i = 1 then 1 else 0) src (zeroBlock size)
      (by simp) hl
    have h2 := accumulate_spec size k (fun i => if row i = 1 then 0 else row i) src _ h1.1 hl
    refine block_ext (by rw [h2.1, length_combine size k row src hl]) (fun t => ?_)
    rw [h2.2, h1.2, getD_zeroBlock, zero_add, getD_combine size k row src hl,
      ← Finset.sum_add_distrib]
    refine Finset.sum_congr rfl (fun i _ => ?_)
    by_cases h : row i = 1 <;> simp [h]
  unfold jerasureMatrixDotprod
  rw [he]
  change ((List.range k).foldlM (dotprodFactors row sptr size) _ >>= fun st => pure st.2) = _
  rw [he', ← hb]
  rfl

end OptLrc.Jerasure
