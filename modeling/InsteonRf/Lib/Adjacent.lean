import Mathlib.Data.List.Chain
import Mathlib.Tactic

/-!
# Adjacent pairs

How many neighbours in a list stand in a relation. Taking elements out of a list makes at most
one new pair of neighbours for each.
-/
namespace Adjacent

variable {α : Type*} (r : α → α → Prop) [DecidableRel r]

def count : List α → ℕ
  | a :: b :: l => (if r a b then 1 else 0) + count (b :: l)
  | _ => 0

theorem count_cons_cons (a b : α) (l : List α) :
    count r (a :: b :: l) = (if r a b then 1 else 0) + count r (b :: l) := rfl

theorem count_le_cons (a : α) (l : List α) : count r l ≤ count r (a :: l) := by
  cases l with
  | nil => exact Nat.zero_le _
  | cons b l => exact Nat.le_add_left _ _

theorem count_cons_le (a : α) (l : List α) : count r (a :: l) ≤ count r l + 1 := by
  cases l with
  | nil => exact Nat.zero_le _
  | cons b l =>
      rw [count_cons_cons]
      split_ifs <;> omega

theorem count_concat (l : List α) (b : α) :
    count r (l ++ [b]) = count r l + if ∃ a ∈ l.getLast?, r a b then 1 else 0 := by
  induction l with
  | nil => simp [count]
  | cons a l ih =>
      cases l with
      | nil => simp [count]
      | cons c l =>
          rw [List.cons_append, List.cons_append, count_cons_cons, ← List.cons_append, ih,
            count_cons_cons, List.getLast?_cons_cons, Nat.add_assoc]

theorem count_eq_zero_iff {l : List α} : count r l = 0 ↔ l.IsChain (fun a b => ¬ r a b) := by
  induction l with
  | nil => simp [count]
  | cons a l ih =>
      cases l with
      | nil => simp [count]
      | cons b l =>
          rw [count_cons_cons, List.isChain_cons_cons, ← ih, Nat.add_eq_zero_iff]
          simp

theorem count_cons_sublist {l m : List α} (h : l.Sublist m) (x : α) :
    count r (x :: l) + l.length ≤ count r (x :: m) + m.length := by
  induction h generalizing x with
  | slnil => exact le_rfl
  | cons a _ ih =>
      rename_i l m _
      have hhead := (count_cons_le r x l).trans (Nat.succ_le_succ (count_le_cons r a l))
      have hrest := ih a
      rw [count_cons_cons, List.length_cons]
      omega
  | cons_cons a _ ih =>
      have hrest := ih a
      rw [count_cons_cons, count_cons_cons, List.length_cons, List.length_cons]
      omega

/-- A sublist has at most one more such pair for each element that it lacks. -/
theorem count_sublist {l m : List α} (h : l.Sublist m) :
    count r l + l.length ≤ count r m + m.length := by
  induction h with
  | slnil => exact le_rfl
  | cons a _ ih =>
      rename_i l m _
      have hle := count_le_cons r a m
      rw [List.length_cons]
      omega
  | cons_cons a h _ =>
      have hrest := count_cons_sublist r h a
      rw [List.length_cons, List.length_cons]
      omega

end Adjacent
