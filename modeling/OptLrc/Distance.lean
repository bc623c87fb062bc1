import OptLrc.Stripe
import Mathlib.LinearAlgebra.FiniteDimensional.Lemmas

namespace OptLrc.Distance

open OptLrc.Galois OptLrc.Memory OptLrc.Jerasure OptLrc.Encoder OptLrc.Stripe

/-- `math.ceil(a / b)`. -/
def ceilDiv (a b : Int) : Int := -(-a / b)

/-- `cal` of `pic_sim/utils.py`. -/
def cal (n k r : Nat) : Int :=
  let g : Int := n - k - ceilDiv n (r + 1)
  let gl := ceilDiv n (r + 1) - ceilDiv k r
  if ceilDiv (g + 1) r > gl then g + gl + 2 else g + gl + 1

theorem ceilDiv_eq (a b : Nat) (hb : 0 < b) : ceilDiv a b = ((a + b - 1) / b : Nat) := by
  obtain ⟨c, rfl⟩ : ∃ c, b = c + 1 := ⟨b - 1, by omega⟩
  have hq : (a + (c + 1) - 1) / (c + 1) * (c + 1) + (a + (c + 1) - 1) % (c + 1) = a + c := by
    rw [Nat.mul_comm, Nat.div_add_mod]
    omega
  have hm := Nat.mod_lt (a + (c + 1) - 1) (show 0 < c + 1 by omega)
  generalize (a + (c + 1) - 1) / (c + 1) = q at hq ⊢
  generalize (a + (c + 1) - 1) % (c + 1) = m at hq hm
  unfold ceilDiv
  have : (-(a : Int)) / ((c + 1 : Nat) : Int) = -(q : Int) := by
    refine (Int.ediv_eq_iff_of_pos (by omega)).mpr ?_
    push_cast at *
    constructor <;> nlinarith
  rw [this, neg_neg]

/-- A ceiling, without division. -/
theorem ceil_bounds (a b : Nat) (hb : 0 < b) :
    a ≤ (a + b - 1) / b * b ∧ (a + b - 1) / b * b ≤ a + b - 1 := by
  have hq := Nat.div_add_mod (a + b - 1) b
  have hm := Nat.mod_lt (a + b - 1) hb
  rw [Nat.mul_comm] at hq
  omega

theorem ceilDiv_groups (n r : Nat) : ceilDiv n (r + 1) = (localGroupNumber n r : Nat) := by
  have := ceilDiv_eq n (r + 1) (by omega)
  push_cast at this
  rw [this]
  rfl

/-- The two cases of `cal` agree: the number of global parities, and one more position
for each group that a set of one source more than that must meet. -/
theorem cal_eq {n k r : Nat} (hv : Valid n k r) :
    cal n k r = (globalNumber n k r + globalNumber n k r / r + 2 : Nat) := by
  have hr := hv.r_pos
  have hfit := hv.fits
  have hn := blocks_eq hv
  have hg : (n : Int) - k - (localGroupNumber n r : Nat) = (globalNumber n k r : Nat) := by omega
  have hLb := ceil_bounds n (r + 1) (by omega)
  rw [show (n + (r + 1) - 1) / (r + 1) = localGroupNumber n r from rfl] at hLb
  have ht : ceilDiv ((globalNumber n k r : Nat) + 1) r = (globalNumber n k r / r + 1 : Nat) := by
    have := ceilDiv_eq (globalNumber n k r + 1) r hr
    rw [show globalNumber n k r + 1 + r - 1 = globalNumber n k r + r by omega,
      Nat.add_div_right _ hr] at this
    exact_mod_cast this
  simp only [cal, ceilDiv_groups, hg, ht, ceilDiv_eq k r hr]
  have hAb := ceil_bounds k r hr
  have hqb := Nat.div_mul_le_self (globalNumber n k r) r
  have hqb' := Nat.lt_div_mul_add (a := globalNumber n k r) hr
  generalize globalNumber n k r = g at *
  generalize localGroupNumber n r = L at *
  generalize (k + r - 1) / r = A at *
  generalize g / r = q at *
  rw [Nat.mul_add, Nat.mul_one] at hLb
  have h1 : A + q ≤ L := by
    by_contra h
    have := Nat.mul_le_mul_right r (show L + 1 ≤ A + q by omega)
    rw [Nat.add_mul, Nat.add_mul] at this
    omega
  have h2 : L ≤ A + q + 1 := by
    by_contra h
    have := Nat.mul_le_mul_right r (show A + q + 2 ≤ L by omega)
    rw [Nat.add_mul, Nat.add_mul] at this
    omega
  split <;> omega

/-- `k` data blocks of one size. -/
structure Tuple (k size : Nat) where
  blocks : List Block
  length_eq : blocks.length = k
  length_block : ∀ b ∈ blocks, b.length = size

namespace Tuple

variable {k size : Nat}

def ptrs (x : Tuple k size) : Cells Block := x.blocks.map some

def block (x : Tuple k size) (s : Nat) : Block := x.blocks.getD s []

theorem ptrs_getElem? (x : Tuple k size) (s : Nat) (hs : s < k) :
    x.ptrs[s]? = some (some (x.block s)) := by
  have : s < x.blocks.length := by rw [x.length_eq]; exact hs
  simp [ptrs, block, this]

theorem length_block' (x : Tuple k size) (s : Nat) (hs : s < k) : (x.block s).length = size := by
  have h : s < x.blocks.length := by rw [x.length_eq]; exact hs
  refine x.length_block _ ?_
  simp only [block, List.getD_eq_getElem?_getD, List.getElem?_eq_getElem h, Option.getD_some]
  exact List.getElem_mem h

theorem ext_block {x y : Tuple k size} (h : ∀ s < k, x.block s = y.block s) : x = y := by
  obtain ⟨xs, hx, _⟩ := x
  obtain ⟨ys, hy, _⟩ := y
  congr
  refine List.ext_getElem (by omega) (fun s h1 h2 => ?_)
  have := h s (by omega)
  simpa [block, h1, h2] using this

def of (f : Nat → Block) (hf : ∀ s < k, (f s).length = size) : Tuple k size where
  blocks := (List.range k).map f
  length_eq := by simp
  length_block := by
    intro b hb
    obtain ⟨s, hs, rfl⟩ := List.mem_map.mp hb
    exact hf s (List.mem_range.mp hs)

theorem block_of (f : Nat → Block) (hf : ∀ s < k, (f s).length = size) (s : Nat) (hs : s < k) :
    (of f hf).block s = f s := by
  simp [of, block, hs]

end Tuple

/-- Any `e` lost blocks of the stripe leave the data determined by the other blocks. -/
def Tolerates (V : CodingMatrix) (global : Nat → Nat → Byte) (n k r size e : Nat) : Prop :=
  ∃ stripe : Tuple k size → Cells Block,
    (∀ x, allBlocksWith V global n k r size x.ptrs = .ok (stripe x)) ∧
    ∀ lost : Finset Nat, lost.card ≤ e → ∀ x y,
      (∀ p < n, p ∉ lost → (stripe x)[p]? = (stripe y)[p]?) → x = y

section Symbols

variable {F : Type} [Field F]

/-- One symbol of source `s`, for the symbols `c` of the data at the same place. -/
def symbol (global : Nat → Nat → F) (k : Nat) (c : Nat → F) (s : Nat) : F :=
  if s < k then c s else ∑ i ∈ Finset.range k, global (s - k) i * c i

/-- The row of the generator matrix for source `s`. -/
def coefficient (global : Nat → Nat → F) (k s i : Nat) : F :=
  if s < k then if i = s then 1 else 0 else global (s - k) i

theorem symbol_eq_sum (global : Nat → Nat → F) (k : Nat) (c : Nat → F) (s : Nat) :
    symbol global k c s = ∑ i ∈ Finset.range k, coefficient global k s i * c i := by
  unfold symbol coefficient
  split
  · next h => simp [h]
  · rfl

/-- One symbol of the stripe, for the symbols of its sources. -/
def stripeSymbol (n r : Nat) (source : Nat → F) (p : Nat) : F :=
  if IsParity n r p then
    ∑ ii ∈ Finset.range (groupCount n r (p / (r + 1))), source (p / (r + 1) * r + ii)
  else source (p / (r + 1) * r + p % (r + 1))

theorem symbol_congr (global : Nat → Nat → F) {k : Nat} {c d : Nat → F} (h : ∀ i < k, c i = d i) :
    symbol global k c = symbol global k d := by
  funext s
  unfold symbol
  split
  · next hs => exact h s hs
  · refine Finset.sum_congr rfl (fun i hi => ?_)
    rw [h i (Finset.mem_range.mp hi)]

theorem symbol_sub (global : Nat → Nat → F) (k : Nat) (c d : Nat → F) :
    symbol global k (fun i => c i - d i) = fun s => symbol global k c s - symbol global k d s := by
  funext s
  unfold symbol
  split
  · rfl
  · simp only [mul_sub, Finset.sum_sub_distrib]

theorem stripeSymbol_sub (n r : Nat) (a b : Nat → F) (p : Nat) :
    stripeSymbol n r (fun s => a s - b s) p = stripeSymbol n r a p - stripeSymbol n r b p := by
  unfold stripeSymbol
  split
  · simp only [Finset.sum_sub_distrib]
  · rfl

theorem stripeSymbol_parity {n r : Nat} (hr : 1 ≤ r) (source : Nat → F) (i : Nat)
    (hi : i < localGroupNumber n r) :
    stripeSymbol n r source (parityPosition n r i) =
      ∑ ii ∈ Finset.range (groupCount n r i), source (i * r + ii) := by
  rw [stripeSymbol, if_pos (isParity_parityPosition hr i hi), parityPosition,
    group_div (groupCount_le n r i)]

theorem stripeSymbol_position {n r : Nat} (hr : 1 ≤ r) (source : Nat → F) (s : Nat)
    (hs : s < n - localGroupNumber n r) :
    stripeSymbol n r source (position r s) = source s := by
  obtain ⟨hnp, hdiv, hmod⟩ := position_spec hr s hs
  rw [stripeSymbol, if_neg hnp, hdiv, hmod, Nat.div_add_mod']

/-- `Tolerates`, for one symbol of each block. -/
def SymbolTolerates (global : Nat → Nat → F) (n k r e : Nat) : Prop :=
  ∀ lost : Finset Nat, lost.card ≤ e → ∀ c : Nat → F,
    (∀ p < n, p ∉ lost → stripeSymbol n r (symbol global k c) p = 0) → ∀ s < k, c s = 0

end Symbols

section Blocks

variable {n k r size : Nat} {data : Nat → Block}

theorem getD_sourceBlock (global : Nat → Nat → Byte) (hl : ∀ s < k, (data s).length = size)
    (s t : Nat) : (sourceBlock global k size data s).getD t 0 =
      symbol global k (fun i => (data i).getD t 0) s := by
  unfold sourceBlock symbol
  split
  · rfl
  · exact getD_combine size k _ data hl t

theorem getD_stripeBlock (global : Nat → Nat → Byte) (hl : ∀ s < k, (data s).length = size)
    (p t : Nat) : (stripeBlock n r size (sourceBlock global k size data) p).getD t 0 =
      stripeSymbol n r (symbol global k (fun i => (data i).getD t 0)) p := by
  unfold stripeBlock stripeSymbol
  split
  · rw [parityBlock, getD_combine _ _ _ _ (fun ii _ => length_sourceBlock global hl _)]
    refine Finset.sum_congr rfl (fun ii _ => ?_)
    rw [one_mul, getD_sourceBlock global hl]
  · exact getD_sourceBlock global hl _ t

theorem length_stripeBlock (global : Nat → Nat → Byte) (hl : ∀ s < k, (data s).length = size)
    (p : Nat) : (stripeBlock n r size (sourceBlock global k size data) p).length = size := by
  unfold stripeBlock
  split
  · exact length_combine _ _ _ _ (fun ii _ => length_sourceBlock global hl _)
  · exact length_sourceBlock global hl _

variable {V : CodingMatrix}

/-- The blocks that hold one symbol in all their places. -/
def spread (k size : Nat) (c : Nat → Byte) : Tuple k size :=
  .of (fun s => List.replicate size (c s)) (by simp)

def stripeOf (global : Nat → Nat → Byte) (n r : Nat) (x : Tuple k size) : Cells Block :=
  (List.range n).map (fun p => some (stripeBlock n r size (sourceBlock global k size x.block) p))

theorem allBlocksWith_tuple (global : Nat → Nat → Byte) (hv : Valid n k r) (h8 : 8 ∣ size)
    (hone : ∀ count < n, ∀ j < count, V count 1 0 j = 1) (x : Tuple k size) :
    allBlocksWith V global n k r size x.ptrs = .ok (stripeOf global n r x) :=
  allBlocksWith_eq global hv h8 hone x.ptrs_getElem? x.length_block'

theorem stripeOf_eq_iff (global : Nat → Nat → Byte) (x y : Tuple k size) (p : Nat) (hp : p < n) :
    (stripeOf global n r x)[p]? = (stripeOf global n r y)[p]? ↔
      ∀ t, stripeSymbol n r (symbol global k (fun i => (x.block i).getD t 0 - (y.block i).getD t 0)) p
        = 0 := by
  have hs : ∀ t, stripeSymbol n r
      (symbol global k (fun i => (x.block i).getD t 0 - (y.block i).getD t 0)) p =
      (stripeBlock n r size (sourceBlock global k size x.block) p).getD t 0 -
        (stripeBlock n r size (sourceBlock global k size y.block) p).getD t 0 := by
    intro t
    rw [getD_stripeBlock global x.length_block', getD_stripeBlock global y.length_block',
      ← stripeSymbol_sub, symbol_sub]
  simp only [stripeOf, List.getElem?_map, List.getElem?_range hp, Option.map_some, Option.some.injEq,
    hs, sub_eq_zero]
  constructor
  · intro h t
    rw [h]
  · refine block_ext ?_
    rw [length_stripeBlock global x.length_block', length_stripeBlock global y.length_block']

theorem getD_spread (c : Nat → Byte) (s t : Nat) (hs : s < k) :
    ((spread k size c).block s).getD t 0 = if t < size then c s else 0 := by
  rw [spread, Tuple.block_of _ _ s hs, List.getD_eq_getElem?_getD, List.getElem?_replicate]
  split <;> rfl

/-- Two stripes of spread symbols differ where the symbol of the difference is not zero. -/
theorem stripeOf_spread (global : Nat → Nat → Byte) (hsize : 0 < size) (c : Nat → Byte) (p : Nat)
    (hp : p < n) : (stripeOf global n r (spread k size c))[p]? =
      (stripeOf global n r (spread k size 0))[p]? ↔ stripeSymbol n r (symbol global k c) p = 0 := by
  rw [stripeOf_eq_iff global _ _ p hp]
  have ht : ∀ t, symbol global k (fun i => ((spread k size c).block i).getD t 0 -
      ((spread k size 0).block i).getD t 0) = symbol global k (fun i => if t < size then c i else 0) :=
    fun t => symbol_congr global (fun i hi => by
      rw [getD_spread c i t hi, getD_spread 0 i t hi]
      split <;> simp)
  constructor
  · intro h
    have h0 := h 0
    rw [ht] at h0
    simpa only [hsize, if_true] using h0
  · intro h t
    rw [ht]
    by_cases hlt : t < size
    · simpa only [hlt, if_true] using h
    · have h0 := stripeSymbol_sub n r (symbol global k c) (symbol global k c) p
      rw [← symbol_sub, sub_self] at h0
      simpa [hlt] using h0

theorem tolerates_iff (global : Nat → Nat → Byte) (e : Nat) (hv : Valid n k r) (h8 : 8 ∣ size)
    (hsize : 0 < size) (hone : ∀ count < n, ∀ j < count, V count 1 0 j = 1) :
    Tolerates V global n k r size e ↔ SymbolTolerates global n k r e := by
  constructor
  · rintro ⟨stripe, hstripe, h⟩ lost hcard c hc s hs
    have hx : ∀ x, stripe x = stripeOf global n r x := fun x =>
      Except.ok.inj ((hstripe x).symm.trans (allBlocksWith_tuple global hv h8 hone x))
    have := h lost hcard (spread k size c) (spread k size 0) (fun p hp hnot => by
      rw [hx, hx]
      exact (stripeOf_spread global hsize c p hp).mpr (hc p hp hnot))
    have hd := congrArg (fun x => (x.block s).getD 0 0) this
    simpa only [getD_spread c s 0 hs, getD_spread 0 s 0 hs, hsize, if_true, Pi.zero_apply] using hd
  · intro h
    refine ⟨stripeOf global n r, allBlocksWith_tuple global hv h8 hone, ?_⟩
    intro lost hcard x y hxy
    refine Tuple.ext_block (fun s hs => block_ext ?_ (fun t => ?_))
    · rw [x.length_block' s hs, y.length_block' s hs]
    · refine sub_eq_zero.mp (h lost hcard (fun i => (x.block i).getD t 0 - (y.block i).getD t 0)
        (fun p hp hnot => ?_) s hs)
      exact (stripeOf_eq_iff global x y p hp).mp (hxy p hp hnot) t

end Blocks

end OptLrc.Distance
