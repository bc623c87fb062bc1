import Mathlib.Data.Finset.Card
import Mathlib.Data.List.Basic

namespace OptLrc.Segments

variable {α : Type} [DecidableEq α]

/-- The number of places at which a sequence takes another value than just before. -/
def changes : α → List α → Nat
  | _, [] => 0
  | a, b :: l => (if a = b then 0 else 1) + changes b l

/-- A value that the sequence leaves does not come back. -/
def NoReturn : List α → Prop
  | [] => True
  | a :: l => (l.head? = some a ∨ a ∉ l) ∧ NoReturn l

/-- A sequence changes at least once for each value but the first, and exactly so when no
value comes back. -/
theorem card_toFinset_changes (a : α) (l : List α) :
    (a :: l).toFinset.card ≤ changes a l + 1 ∧
      ((a :: l).toFinset.card = changes a l + 1 ↔ NoReturn (a :: l)) := by
  induction l generalizing a with
  | nil => simp [changes, NoReturn]
  | cons b l ih =>
    obtain ⟨hle, heq⟩ := ih b
    rw [List.toFinset_cons, changes, NoReturn, List.head?_cons, Option.some.injEq, ← heq]
    by_cases hab : a = b
    · subst hab
      rw [Finset.insert_eq_of_mem (by simp), if_pos rfl, Nat.zero_add]
      exact ⟨hle, by simp⟩
    · rw [if_neg hab]
      by_cases hmem : a ∈ b :: l
      · rw [Finset.insert_eq_of_mem (List.mem_toFinset.mpr hmem)]
        refine ⟨by omega, ?_⟩
        constructor
        · intro h
          omega
        · rintro ⟨h | h, -⟩
          · exact absurd h.symm hab
          · exact absurd hmem h
      · rw [Finset.card_insert_of_notMem (fun h => hmem (List.mem_toFinset.mp h))]
        refine ⟨by omega, ?_⟩
        constructor
        · intro h
          exact ⟨Or.inr hmem, by omega⟩
        · rintro ⟨-, h⟩
          omega

omit [DecidableEq α] in
theorem noReturn_iff (l : List α) : NoReturn l ↔ ∀ (i j k : Nat) (x y : α), i < j → j < k →
    l[i]? = some x → l[j]? = some y → l[k]? = some x → y = x := by
  induction l with
  | nil => simp [NoReturn]
  | cons a l ih =>
    rw [NoReturn, ih]
    constructor
    · rintro ⟨hhead, htail⟩ i j k x y hij hjk hi hj hk
      obtain ⟨j, rfl⟩ : ∃ j', j = j' + 1 := ⟨j - 1, by omega⟩
      obtain ⟨k, rfl⟩ : ∃ k', k = k' + 1 := ⟨k - 1, by omega⟩
      rw [List.getElem?_cons_succ] at hj hk
      cases i with
      | succ i =>
        rw [List.getElem?_cons_succ] at hi
        exact htail i j k x y (by omega) (by omega) hi hj hk
      | zero =>
        rw [List.getElem?_cons_zero, Option.some.injEq] at hi
        subst hi
        have hmem : a ∈ l := List.mem_of_getElem? hk
        have hfirst := hhead.resolve_right (fun h => h hmem)
        rw [List.head?_eq_getElem?] at hfirst
        cases j with
        | zero =>
          rw [hfirst] at hj
          exact (Option.some.inj hj).symm
        | succ j => exact htail 0 (j + 1) k a y (by omega) (by omega) hfirst hj hk
    · intro h
      constructor
      · by_cases hmem : a ∈ l
        · left
          obtain ⟨k, hk⟩ := List.mem_iff_getElem?.mp hmem
          rw [List.head?_eq_getElem?]
          cases k with
          | zero => exact hk
          | succ k =>
            have hpos : 0 < l.length := by
              have := (List.getElem?_eq_some_iff.mp hk).1
              omega
            rw [List.getElem?_eq_getElem hpos]
            congr 1
            exact h 0 1 (k + 2) a l[0] (by omega) (by omega) rfl
              (by rw [List.getElem?_cons_succ, List.getElem?_eq_getElem hpos]) hk
        · exact Or.inr hmem
      · intro i j k x y hij hjk hi hj hk
        exact h (i + 1) (j + 1) (k + 1) x y (by omega) (by omega) hi hj hk

end OptLrc.Segments
