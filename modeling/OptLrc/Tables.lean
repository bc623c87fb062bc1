import Mathlib.Algebra.Order.Ring.Nat
import Mathlib.Data.List.Basic
import Mathlib.Logic.Equiv.Basic
import Mathlib.Tactic.Ring

namespace OptLrc.Tables

/-- A table of `rows * cols` entries, stored row after row. -/
structure Table (α : Type) (rows cols : Nat) where
  entries : List α
  length_eq : entries.length = rows * cols
  deriving DecidableEq

variable {α : Type} {rows cols : Nat}

theorem cell_lt {i j : Nat} (hi : i < rows) (hj : j < cols) : i * cols + j < rows * cols :=
  calc i * cols + j < (i + 1) * cols := by
        rw [Nat.add_mul, Nat.one_mul]
        omega
    _ ≤ rows * cols := Nat.mul_le_mul_right cols hi

theorem cell_div {i j : Nat} (hj : j < cols) : (i * cols + j) / cols = i := by
  rw [Nat.add_comm, Nat.add_mul_div_right _ _ (by omega), Nat.div_eq_of_lt hj, Nat.zero_add]

theorem cell_mod {i j : Nat} (hj : j < cols) : (i * cols + j) % cols = j := by
  rw [Nat.add_comm, Nat.add_mul_mod_self_right, Nat.mod_eq_of_lt hj]

namespace Table

def ofFn (rows cols : Nat) (f : Nat → Nat → α) : Table α rows cols where
  entries := (List.range (rows * cols)).map fun p => f (p / cols) (p % cols)
  length_eq := by simp

variable [Zero α]

def get (d : Table α rows cols) (i j : Nat) : α := d.entries.getD (i * cols + j) 0

@[simp] theorem get_ofFn (f : Nat → Nat → α) {i j : Nat} (hi : i < rows) (hj : j < cols) :
    (ofFn rows cols f).get i j = f i j := by
  simp [get, ofFn, cell_lt hi hj, cell_div hj, cell_mod hj]

theorem ext_get {d e : Table α rows cols} (h : ∀ i < rows, ∀ j < cols, d.get i j = e.get i j) :
    d = e := by
  obtain ⟨xs, hx⟩ := d
  obtain ⟨ys, hy⟩ := e
  congr
  apply List.ext_getElem (by rw [hx, hy])
  intro p h1 h2
  have hp : p < rows * cols := hx ▸ h1
  have hc : 0 < cols := Nat.pos_of_ne_zero (by rintro rfl; simp at hp)
  have hcell : p / cols * cols + p % cols = p := Nat.div_add_mod' p cols
  have hdiv : p / cols < rows := Nat.div_lt_of_lt_mul (by rwa [Nat.mul_comm])
  simpa [get, hcell, h1, h2] using h (p / cols) hdiv (p % cols) (Nat.mod_lt p hc)

def swapRows (d : Table α rows cols) (i j : Nat) : Table α rows cols :=
  ofFn rows cols fun a b => d.get (Equiv.swap i j a) b

/-- The entries of one row, each replaced. -/
def mapRow (d : Table α rows cols) (i : Nat) (f : Nat → α → α) : Table α rows cols :=
  ofFn rows cols fun a b => if a = i then f b (d.get a b) else d.get a b

/-- The entries of one column from row `top` on, each replaced. -/
def mapColumn (d : Table α rows cols) (top j : Nat) (f : Nat → α → α) : Table α rows cols :=
  ofFn rows cols fun a b => if b = j ∧ top ≤ a then f a (d.get a b) else d.get a b

variable (d : Table α rows cols) {a b : Nat}

@[simp] theorem get_swapRows (i j : Nat) (ha : a < rows) (hb : b < cols) :
    (d.swapRows i j).get a b = d.get (Equiv.swap i j a) b := get_ofFn _ ha hb

@[simp] theorem get_mapRow (i : Nat) (f : Nat → α → α) (ha : a < rows) (hb : b < cols) :
    (d.mapRow i f).get a b = if a = i then f b (d.get a b) else d.get a b := get_ofFn _ ha hb

@[simp] theorem get_mapColumn (top j : Nat) (f : Nat → α → α) (ha : a < rows) (hb : b < cols) :
    (d.mapColumn top j f).get a b = if b = j ∧ top ≤ a then f a (d.get a b) else d.get a b :=
  get_ofFn _ ha hb

end Table

end OptLrc.Tables
