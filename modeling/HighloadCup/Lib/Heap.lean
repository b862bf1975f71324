import Mathlib.Logic.Function.Basic

/-!
# A heap of shared objects

Objects of one type held by pointer, as `std::make_shared` creates them. Allocation hands out a
pointer that was never used before, so a write through one pointer is seen by every holder of
that pointer and by nobody else. Objects are never reclaimed: one that no pointer reaches any
more stays where it is and is of no consequence.
-/

/-- A pointer into a heap. -/
abbrev Ptr := Nat

/-- The objects of one type, and the next pointer to hand out. -/
structure Heap (α : Type*) where
  cells : Ptr → α
  next : Ptr

namespace Heap

variable {α : Type*}

/-- The heap before any allocation. Its cells hold the given value, which no pointer reaches. -/
def empty (a : α) : Heap α := ⟨fun _ => a, 0⟩

/-- The object behind a pointer. -/
def read (h : Heap α) (p : Ptr) : α := h.cells p

/-- Overwrite the object behind a pointer. -/
def write (h : Heap α) (p : Ptr) (a : α) : Heap α :=
  ⟨Function.update h.cells p a, h.next⟩

/-- Create an object behind a fresh pointer. -/
def alloc (h : Heap α) (a : α) : Heap α × Ptr :=
  (⟨Function.update h.cells h.next a, h.next + 1⟩, h.next)

/-- The pointer has been handed out. -/
def Valid (h : Heap α) (p : Ptr) : Prop := p < h.next

/-- What was written is read. -/
@[simp] theorem read_write_self (h : Heap α) (p : Ptr) (a : α) : (h.write p a).read p = a := by
  simp [read, write]

/-- A write leaves the other objects alone. -/
theorem read_write_of_ne (h : Heap α) {p q : Ptr} (a : α) (hne : q ≠ p) :
    (h.write p a).read q = h.read q := by
  simp [read, write, hne]

/-- Reading after a write, at any pointer. -/
theorem read_write (h : Heap α) (p q : Ptr) (a : α) :
    (h.write p a).read q = if q = p then a else h.read q := by
  by_cases hq : q = p
  · simp [hq]
  · simp [hq, read_write_of_ne]

/-- A write neither adds nor removes pointers. -/
@[simp] theorem valid_write (h : Heap α) (p q : Ptr) (a : α) :
    (h.write p a).Valid q ↔ h.Valid q := Iff.rfl

/-- A new object is read at its pointer. -/
@[simp] theorem read_alloc_self (h : Heap α) (a : α) : (h.alloc a).1.read h.next = a := by
  simp [read, alloc]

/-- An allocation leaves every object that already has a pointer alone. -/
theorem read_alloc_of_valid (h : Heap α) {p : Ptr} (a : α) (hp : h.Valid p) :
    (h.alloc a).1.read p = h.read p := by
  have hne : p ≠ h.next := Nat.ne_of_lt hp
  simp [read, alloc, hne]

/-- A pointer stays valid when another object is allocated. -/
theorem Valid.alloc {h : Heap α} {p : Ptr} (hp : h.Valid p) (a : α) : (h.alloc a).1.Valid p :=
  Nat.lt_succ_of_lt hp

/-- The pointer of a new object is valid. -/
@[simp] theorem valid_next_alloc (h : Heap α) (a : α) : (h.alloc a).1.Valid h.next :=
  Nat.lt_succ_self _

/-- In an empty heap no pointer is valid. -/
@[simp] theorem not_valid_empty (a : α) (p : Ptr) : ¬ (empty a).Valid p :=
  Nat.not_lt_zero p

end Heap
