import Mathlib.Data.List.Basic

/-!
# A heap of objects

Objects are allocated at fresh addresses and can be released once.  Addresses are
never used again, so two live objects have the same address only when they are
the same object.
-/

namespace MiniDbms

structure Heap (α : Type) where
  cells : List (Option α)

namespace Heap

variable {α : Type}

def empty : Heap α := ⟨[]⟩

/-- The address of the next object. -/
def next (h : Heap α) : Nat := h.cells.length

def get (h : Heap α) (a : Nat) : Option α := (h.cells[a]?).join

def alloc (h : Heap α) (v : α) : Heap α := ⟨h.cells ++ [some v]⟩

/-- Overwrite the object at an address. -/
def set (h : Heap α) (a : Nat) (v : α) : Heap α := ⟨h.cells.set a (some v)⟩

def free (h : Heap α) (a : Nat) : Heap α := ⟨h.cells.set a none⟩

theorem lt_next_of_get {h : Heap α} {a : Nat} {v : α} (hget : h.get a = some v) :
    a < h.next := by
  by_contra hlt
  simp [get, List.getElem?_eq_none (Nat.le_of_not_lt hlt)] at hget

@[simp] theorem next_alloc (h : Heap α) (v : α) : (h.alloc v).next = h.next + 1 := by
  simp [next, alloc]

@[simp] theorem next_set (h : Heap α) (a : Nat) (v : α) : (h.set a v).next = h.next := by
  simp [next, set]

@[simp] theorem next_free (h : Heap α) (a : Nat) : (h.free a).next = h.next := by
  simp [next, free]

@[simp] theorem get_alloc_next (h : Heap α) (v : α) : (h.alloc v).get h.next = some v := by
  simp [get, alloc, next]

theorem get_alloc_of_lt {h : Heap α} {a : Nat} (v : α) (ha : a < h.next) :
    (h.alloc v).get a = h.get a := by
  simp [get, alloc, next] at ha ⊢
  rw [List.getElem?_append_left ha]

theorem get_alloc_of_get {h : Heap α} {a : Nat} {v : α} (w : α) (hget : h.get a = some v) :
    (h.alloc w).get a = some v := by
  rw [get_alloc_of_lt w (lt_next_of_get hget), hget]

theorem get_set_self {h : Heap α} {a : Nat} {v : α} (w : α) (hget : h.get a = some v) :
    (h.set a w).get a = some w := by
  have ha : a < h.cells.length := lt_next_of_get hget
  simp [get, set, ha]

theorem set_self {h : Heap α} {a : Nat} {v : α} (hget : h.get a = some v) : h.set a v = h := by
  have ha : a < h.cells.length := lt_next_of_get hget
  have hcell : h.cells[a] = some v := by
    unfold get at hget
    rw [List.getElem?_eq_getElem ha] at hget
    exact hget
  unfold set
  rw [← hcell, List.set_getElem_self]

theorem get_set_of_ne (h : Heap α) {a b : Nat} (v : α) (hne : b ≠ a) :
    (h.set a v).get b = h.get b := by
  simp [get, set, List.getElem?_set_ne (Ne.symm hne)]

@[simp] theorem get_free_self (h : Heap α) (a : Nat) : (h.free a).get a = none := by
  simp only [get, free, List.getElem?_set_self']
  cases h.cells[a]? <;> rfl

theorem get_free_of_ne (h : Heap α) {a b : Nat} (hne : b ≠ a) :
    (h.free a).get b = h.get b := by
  simp [get, free, List.getElem?_set_ne (Ne.symm hne)]

end Heap

end MiniDbms
