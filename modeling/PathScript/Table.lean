
/-! # Tables

A table holds the cells of one kind: lists, maps, bindings, scopes, accessor
states. A cell is named by the number it got when it was allocated. Numbers are
never reused, so two cells are the same cell exactly when their numbers are
equal; this is the identity that aliasing is about. -/

namespace PathScript

structure Table (α : Type) where
  cells : Array α
deriving Inhabited

namespace Table

variable {α : Type}

def empty : Table α := ⟨#[]⟩

/-- How many cells there are; also the number of the next cell. -/
def size (t : Table α) : Nat := t.cells.size

def get? (t : Table α) (i : Nat) : Option α := t.cells[i]?

def alloc (t : Table α) (a : α) : Nat × Table α := (t.cells.size, ⟨t.cells.push a⟩)

/-- Overwrites a cell; a number without a cell changes nothing. -/
def set (t : Table α) (i : Nat) (a : α) : Table α := ⟨t.cells.setIfInBounds i a⟩

def update (t : Table α) (i : Nat) (f : α → α) : Table α := ⟨t.cells.modify i f⟩

@[simp] theorem alloc_fst (t : Table α) (a : α) : (t.alloc a).1 = t.size := rfl

@[simp] theorem size_alloc (t : Table α) (a : α) : (t.alloc a).2.size = t.size + 1 := by
  simp [alloc, size]

@[simp] theorem size_set (t : Table α) (i : Nat) (a : α) : (t.set i a).size = t.size := by
  simp [set, size]

/-- A new cell holds what it was allocated with and every older cell is as before. -/
theorem get?_alloc (t : Table α) (a : α) (i : Nat) :
    (t.alloc a).2.get? i = if i = (t.alloc a).1 then some a else t.get? i := by
  show (t.cells.push a)[i]? = if i = t.cells.size then some a else t.cells[i]?
  rw [Array.getElem?_push]

theorem get?_set (t : Table α) (i : Nat) (a : α) (j : Nat) :
    (t.set i a).get? j = if i = j ∧ j < t.size then some a else t.get? j := by
  simp only [set, get?, size, Array.getElem?_setIfInBounds]
  by_cases h : i = j
  · subst h
    by_cases hi : i < t.cells.size <;> simp [hi]
  · simp [h]

@[simp] theorem size_update (t : Table α) (i : Nat) (f : α → α) : (t.update i f).size = t.size := by
  simp [update, size]

theorem get?_update (t : Table α) (i : Nat) (f : α → α) (j : Nat) :
    (t.update i f).get? j = if i = j then (t.get? j).map f else t.get? j := by
  simp only [update, get?, Array.getElem?_modify]

theorem get?_set_ne {t : Table α} {i j : Nat} (h : i ≠ j) (a : α) : (t.set i a).get? j = t.get? j := by
  simp [get?_set, h]

end Table

/-! # Sparse tables

A sparse table may hold a value under any number. Numbers that were never
written hold nothing. -/

structure Sparse (α : Type) where
  cells : Array (Option α)
deriving Inhabited

namespace Sparse

variable {α : Type}

def empty : Sparse α := ⟨#[]⟩

def get? (t : Sparse α) (i : Nat) : Option α := (t.cells[i]?).join

/-- Room for numbers up to `n`. -/
def grow (t : Sparse α) (n : Nat) : Array (Option α) := t.cells ++ Array.replicate (n - t.cells.size) none

def set (t : Sparse α) (i : Nat) (a : α) : Sparse α := ⟨(t.grow (i + 1)).setIfInBounds i (some a)⟩

/-- Writes under a number that holds nothing yet. -/
def setNew (t : Sparse α) (i : Nat) (a : α) : Sparse α := if (t.get? i).isSome then t else t.set i a

@[simp] theorem get?_empty (i : Nat) : (empty : Sparse α).get? i = none := by simp [empty, get?]

/-- After a write the number holds what was written and all others hold what they did. -/
theorem get?_set (t : Sparse α) (i : Nat) (a : α) (j : Nat) :
    (t.set i a).get? j = if i = j then some a else t.get? j := by
  have hs : i < (t.grow (i + 1)).size := by simp [grow]; omega
  by_cases h : i = j
  · subst h
    simp [set, get?, hs]
  · simp only [set, get?, Array.getElem?_setIfInBounds, if_neg h]
    simp only [grow, Array.getElem?_append, Array.getElem?_replicate]
    split
    · rfl
    · rename_i hj
      rw [Array.getElem?_eq_none (by omega)]
      split <;> rfl

end Sparse

end PathScript
