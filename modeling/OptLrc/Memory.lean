import Mathlib.Algebra.Group.Nat.Defs
import Mathlib.Data.List.Basic

namespace OptLrc.Memory

/-- What a C program may do instead of computing a value. -/
inductive Fault
  | uninitialised
  | outOfBounds
  | badAlloc
  | blocked
  deriving DecidableEq, Repr

variable {α β : Type}

/-- An array whose cells may never have been written. -/
abbrev Cells (α : Type) := List (Option α)

namespace Cells

def new (n : Nat) : Cells α := List.replicate n none

def filled (n : Nat) (a : α) : Cells α := List.replicate n (some a)

/-- The cell itself: copying a pointer out of the array does not follow it. -/
def cell (a : Cells α) (i : Nat) : Except Fault (Option α) :=
  match a[i]? with
  | none => .error .outOfBounds
  | some v => .ok v

def read (a : Cells α) (i : Nat) : Except Fault α :=
  match a[i]? with
  | none => .error .outOfBounds
  | some none => .error .uninitialised
  | some (some v) => .ok v

def put (c : Cells α) (i : Nat) (v : Option α) : Except Fault (Cells α) :=
  if i < c.length then .ok (c.set i v) else .error .outOfBounds

def write (c : Cells α) (i : Nat) (a : α) : Except Fault (Cells α) := put c i (some a)

end Cells

/-- `new char[size]`: no object is larger than half the address space. -/
def alloc (size : Nat) : Except Fault Unit :=
  if size < 2 ^ 63 then .ok () else .error .badAlloc

/-- `size_t` subtraction. -/
def sizeSub (a b : Nat) : Nat := (a + (2 ^ 64 - b % 2 ^ 64)) % 2 ^ 64

/-- The bytes `[off, off + len)` of a buffer. -/
def readRange (buf : List α) (off len : Nat) : Except Fault (List α) :=
  if len = 0 ∨ off + len ≤ buf.length then .ok ((buf.drop off).take len) else .error .outOfBounds

/-- `memcpy(dst + off, src, len)`, with the pieces already read. -/
def writeRange (buf : List α) (off : Nat) (src : List α) : Except Fault (List α) :=
  if src = [] ∨ off + src.length ≤ buf.length then
    .ok (buf.take off ++ src ++ buf.drop (off + src.length))
  else .error .outOfBounds

@[simp] theorem ok_bind {ε : Type} (a : α) (f : α → Except ε β) : (Except.ok a >>= f) = f a := rfl

@[simp] theorem error_bind {ε : Type} (e : ε) (f : α → Except ε β) :
    (Except.error e >>= f) = .error e := rfl

@[simp] theorem pure_eq_ok {ε : Type} (a : α) : (pure a : Except ε α) = .ok a := rfl

@[simp] theorem Cells.length_new (n : Nat) : (Cells.new n : Cells α).length = n := by
  simp [Cells.new]

@[simp] theorem Cells.length_filled (n : Nat) (a : α) : (Cells.filled n a).length = n := by
  simp [Cells.filled]

theorem bind_eq_ok {ε : Type} {x : Except ε α} {f : α → Except ε β} {b : β} :
    (x >>= f) = .ok b ↔ ∃ a, x = .ok a ∧ f a = .ok b := by
  cases x with
  | error e => simp
  | ok a => simp

theorem Cells.read_eq {a : Cells α} {i : Nat} {v : α} (h : a[i]? = some (some v)) :
    a.read i = .ok v := by
  simp [Cells.read, h]

theorem Cells.write_eq {c : Cells α} {i : Nat} (a : α) (h : i < c.length) :
    c.write i a = .ok (c.set i (some a)) := by
  simp [Cells.write, Cells.put, h]

theorem sizeSub_eq {a b : Nat} (ha : a < 2 ^ 64) (hb : b ≤ a) : sizeSub a b = a - b := by
  unfold sizeSub
  rw [Nat.mod_eq_of_lt (by omega : b < 2 ^ 64)]
  omega

end OptLrc.Memory
