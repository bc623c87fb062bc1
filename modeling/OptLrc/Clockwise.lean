import Mathlib.Data.List.Basic
import Mathlib.Order.Lattice

namespace OptLrc.Clockwise

variable {α ι ε : Type} [LinearOrder α]

/-- Going round from `h`, `p` comes no later than `q`. -/
def Before (h p q : α) : Prop := (h ≤ p ∧ (p ≤ q ∨ q < h)) ∨ (p ≤ q ∧ q < h)

theorem Before.antisymm {h p q : α} (hpq : Before h p q) (hqp : Before h q p) : p = q := by
  apply le_antisymm
  · rcases hpq with ⟨hp, hle | hq⟩ | ⟨hle, -⟩
    · exact hle
    · rcases hqp with ⟨hq', -⟩ | ⟨-, hp'⟩
      · exact absurd hq (not_lt.mpr hq')
      · exact absurd hp' (not_lt.mpr hp)
    · exact hle
  · rcases hqp with ⟨hq, hle | hp⟩ | ⟨hle, -⟩
    · exact hle
    · rcases hpq with ⟨hp', -⟩ | ⟨-, hq'⟩
      · exact absurd hp (not_lt.mpr hp')
      · exact absurd hq' (not_lt.mpr hq)
    · exact hle

/-- `i` is among the first that one meets, going round from `h`. -/
structure Nearest (value : ι → α) (h : α) (s : Set ι) (i : ι) : Prop where
  mem : i ∈ s
  before : ∀ j ∈ s, Before h (value i) (value j)

variable {value : ι → α} {h : α} {i : ι}

/-- Binary search for the place from which on `goRight` is false. -/
def bisect (goRight : Nat → Except ε Bool) (left right : Nat) : Except ε Nat :=
  if left < right then do
    let middle := left + (right - left) / 2
    if ← goRight middle then bisect goRight (middle + 1) right else bisect goRight left middle
  else .ok right
termination_by right - left
decreasing_by all_goals omega

theorem bisect_spec {goRight : Nat → Except ε Bool} {below : Nat → Bool}
    (hmono : ∀ k l, k ≤ l → below l = true → below k = true) (left right : Nat) (hle : left ≤ right)
    (hread : ∀ k, left ≤ k → k < right → goRight k = .ok (below k)) :
    ∃ r, bisect goRight left right = .ok r ∧ left ≤ r ∧ r ≤ right ∧
      (∀ k, left ≤ k → k < r → below k = true) ∧ ∀ k, r ≤ k → k < right → ¬ below k = true := by
  induction left, right using bisect.induct with
  | case1 left right hlt middle ihright ihleft =>
    have hm : left ≤ middle ∧ middle < right := by omega
    rw [bisect, if_pos hlt]
    change ∃ r, (goRight middle >>= fun b => if b then bisect goRight (middle + 1) right else bisect goRight left middle) =
      .ok r ∧ _
    rw [hread middle hm.1 hm.2]
    by_cases hb : below middle = true
    · obtain ⟨r, hr, hl, hright, hlow, hhigh⟩ := ihright hm.2 (fun k hk hk' => hread k (by omega) hk')
      refine ⟨r, by rw [hb]; exact hr, by omega, hright, fun k hk hk' => ?_, hhigh⟩
      by_cases hkm : k ≤ middle
      · exact hmono k middle hkm hb
      · exact hlow k (by omega) hk'
    · obtain ⟨r, hr, hl, hright, hlow, hhigh⟩ := ihleft hm.1 (fun k hk hk' => hread k hk (by omega))
      refine ⟨r, by rw [Bool.not_eq_true] at hb; rw [hb]; exact hr, hl, by omega, hlow, fun k hk hk' => ?_⟩
      by_cases hkm : k < middle
      · exact hhigh k hk hkm
      · exact fun h => hb (hmono middle k (Nat.le_of_not_lt hkm) h)
  | case2 left right hlt =>
    rw [bisect, if_neg hlt]
    exact ⟨right, rfl, hle, Nat.le_refl right, fun k hk hk' => absurd (Nat.lt_of_le_of_lt hk hk') hlt,
      fun k hk hk' => absurd hk (Nat.not_le.mpr hk')⟩

theorem value_le_value {xs : List ι} (hsorted : xs.Pairwise (fun a b => value a ≤ value b)) {k l : Nat} (hkl : k ≤ l)
    {x y : ι} (hx : xs[k]? = some x) (hy : xs[l]? = some y) : value x ≤ value y := by
  obtain ⟨hk, hx⟩ := List.getElem?_eq_some_iff.mp hx
  obtain ⟨hl, hy⟩ := List.getElem?_eq_some_iff.mp hy
  subst hx hy
  rcases Nat.eq_or_lt_of_le hkl with rfl | hlt
  · exact le_rfl
  · exact List.pairwise_iff_getElem.mp hsorted k l hk hl hlt

/-- The first entry of a sorted list that is not below `h`, or else its first entry. -/
theorem nearest_of_sorted {xs : List ι} (hsorted : xs.Pairwise (fun a b => value a ≤ value b)) {r : Nat}
    (hbelow : ∀ k < r, ∀ x, xs[k]? = some x → value x < h)
    (habove : ∀ k, r ≤ k → ∀ x, xs[k]? = some x → h ≤ value x)
    (hi : xs[if r = xs.length then 0 else r]? = some i) : Nearest value h {x | x ∈ xs} i := by
  refine ⟨List.mem_of_getElem? hi, fun y hy => ?_⟩
  obtain ⟨l, hl⟩ := List.getElem?_of_mem hy
  by_cases hr : r = xs.length
  · rw [if_pos hr] at hi
    have hlt := (List.getElem?_eq_some_iff.mp hl).1
    exact Or.inr ⟨value_le_value hsorted (Nat.zero_le l) hi hl, hbelow l (hr ▸ hlt) y hl⟩
  · rw [if_neg hr] at hi
    apply Or.inl
    refine ⟨habove r (Nat.le_refl r) i hi, ?_⟩
    by_cases hlr : l < r
    · exact Or.inr (hbelow l hlr y hl)
    · exact Or.inl (value_le_value hsorted (Nat.le_of_not_lt hlr) hi hl)

/-- Binary search of a sorted list, and round to its first entry from the end. -/
theorem bisect_nearest {xs : List ι} (hsorted : xs.Pairwise (fun a b => value a ≤ value b)) (hne : xs ≠ [])
    {goRight : Nat → Except ε Bool}
    (hread : ∀ k x, xs[k]? = some x → goRight k = .ok (decide (value x < h))) :
    ∃ r i, bisect goRight 0 xs.length = .ok r ∧ xs[if r = xs.length then 0 else r]? = some i ∧
      Nearest value h {x | x ∈ xs} i := by
  obtain ⟨r, hr, -, hright, hlow, hhigh⟩ := @bisect_spec ε goRight (fun k => xs[k]?.any (fun x => decide (value x < h)))
    (by
      intro k l hkl hbelow
      obtain ⟨y, hy, hlt⟩ := (Option.any_eq_true _ _).mp hbelow
      have hl := (List.getElem?_eq_some_iff.mp hy).1
      have hx := List.getElem?_eq_getElem (Nat.lt_of_le_of_lt hkl hl)
      apply (Option.any_eq_true _ _).mpr
      exact ⟨_, hx, decide_eq_true (lt_of_le_of_lt (value_le_value hsorted hkl hx hy) (of_decide_eq_true hlt))⟩)
    0 xs.length (Nat.zero_le _) (by
      intro k _ hk
      have hx := List.getElem?_eq_getElem hk
      rw [hread k _ hx, hx, Option.any_some])
  have hlt : (if r = xs.length then 0 else r) < xs.length := by
    have hpos := List.length_pos_iff.mpr hne
    split
    · exact hpos
    · omega
  refine ⟨r, xs[if r = xs.length then 0 else r], hr, List.getElem?_eq_getElem hlt, ?_⟩
  apply nearest_of_sorted hsorted
  · intro k hk x hx
    obtain ⟨y, hy, hbelow⟩ := (Option.any_eq_true _ _).mp (hlow k (Nat.zero_le k) hk)
    rw [hx] at hy
    cases hy
    exact of_decide_eq_true hbelow
  · intro k hk x hx
    apply le_of_not_gt
    intro hbelow
    apply hhigh k hk (List.getElem?_eq_some_iff.mp hx).1
    rw [hx, Option.any_some, decide_eq_true hbelow]
  · exact List.getElem?_eq_getElem hlt

end OptLrc.Clockwise
