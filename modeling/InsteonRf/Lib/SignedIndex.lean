import Mathlib.Data.List.Basic
import Mathlib.Tactic

/-!
# Indexing from either end

A negative index counts from the end of the list. A single index must lie inside;
the bounds of a slice are clamped.
-/
namespace SignedIndex

variable {α : Type*}

/-- The position an index stands for, possibly outside the list. -/
def position (size : ℕ) (i : ℤ) : ℤ := if i < 0 then i + size else i

def get? (l : List α) (i : ℤ) : Option α :=
  if position l.length i < 0 then none else l[(position l.length i).toNat]?

def slice (l : List α) (start stop : ℤ) : List α :=
  (l.take (position l.length stop).toNat).drop (position l.length start).toNat

/-- `l[:stop]` -/
def upTo (l : List α) (stop : ℤ) : List α := slice l 0 stop

@[simp] theorem position_natCast (size i : ℕ) : position size (i : ℤ) = i := by
  have h : ¬ ((i : ℤ) < 0) := by omega
  simp [position, h]

@[simp] theorem get?_natCast (l : List α) (i : ℕ) : get? l (i : ℤ) = l[i]? := by
  have h : ¬ ((i : ℤ) < 0) := by omega
  simp [get?, h]

theorem upTo_sublist (l : List α) (stop : ℤ) : (upTo l stop).Sublist l := by
  rw [upTo, slice]
  exact (List.drop_sublist _ _).trans (List.take_sublist _ _)

end SignedIndex
