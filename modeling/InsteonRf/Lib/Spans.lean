import Mathlib.Order.Interval.Set.LinearOrder

/-!
# Lists of half-open ranges

A pair `(lo, hi)` stands for the range `[lo, hi)`. `Within lo l hi` says that the ranges of a list
follow each other between two bounds, and `points l` is what they cover together.
-/
namespace Spans

variable {α : Type*} [LinearOrder α]

/-- Each range is in order and starts no sooner than the one before it ends. -/
def Within : α → List (α × α) → α → Prop
  | lo, [], hi => lo ≤ hi
  | lo, s :: l, hi => lo ≤ s.1 ∧ s.1 ≤ s.2 ∧ Within s.2 l hi

def points (l : List (α × α)) : Set α := {k | ∃ s ∈ l, s.1 ≤ k ∧ k < s.2}

variable {lo mid hi : α} {l m : List (α × α)}

@[simp] theorem within_nil : Within lo [] hi ↔ lo ≤ hi := Iff.rfl

@[simp] theorem within_cons {s : α × α} :
    Within lo (s :: l) hi ↔ lo ≤ s.1 ∧ s.1 ≤ s.2 ∧ Within s.2 l hi := Iff.rfl

@[simp] theorem mem_points {k : α} : k ∈ points l ↔ ∃ s ∈ l, s.1 ≤ k ∧ k < s.2 := Iff.rfl

@[simp] theorem points_nil : points ([] : List (α × α)) = ∅ := by
  ext k
  simp

@[simp] theorem points_cons (s : α × α) : points (s :: l) = Set.Ico s.1 s.2 ∪ points l := by
  ext k
  simp

@[simp] theorem points_append : points (l ++ m) = points l ∪ points m := by
  ext k
  simp only [mem_points, List.mem_append, Set.mem_union, or_and_right, exists_or]

theorem mem_points_map {ι : Type*} {f : ι → α × α} {is : List ι} {k : α} :
    k ∈ points (is.map f) ↔ ∃ i ∈ is, (f i).1 ≤ k ∧ k < (f i).2 := by
  simp

theorem Within.le (h : Within lo l hi) : lo ≤ hi := by
  induction l generalizing lo with
  | nil => exact h
  | cons s l ih => exact h.1.trans (h.2.1.trans (ih h.2.2))

theorem Within.mono_left (hlo : lo ≤ mid) (h : Within mid l hi) : Within lo l hi := by
  cases l with
  | nil => exact hlo.trans h
  | cons s l => exact ⟨hlo.trans h.1, h.2⟩

theorem Within.append (hl : Within lo l mid) (hm : Within mid m hi) : Within lo (l ++ m) hi := by
  induction l generalizing lo with
  | nil => exact hm.mono_left hl
  | cons s l ih => exact ⟨hl.1, hl.2.1, ih hl.2.2⟩

theorem Within.lo_le (h : Within lo l hi) {s : α × α} (hs : s ∈ l) : lo ≤ s.1 := by
  induction l generalizing lo with
  | nil => exact absurd hs List.not_mem_nil
  | cons t l ih =>
      rcases List.mem_cons.mp hs with rfl | hs
      · exact h.1
      · exact h.1.trans (h.2.1.trans (ih h.2.2 hs))

theorem Within.ordered (h : Within lo l hi) {s : α × α} (hs : s ∈ l) : s.1 ≤ s.2 := by
  induction l generalizing lo with
  | nil => exact absurd hs List.not_mem_nil
  | cons t l ih =>
      rcases List.mem_cons.mp hs with rfl | hs
      · exact h.2.1
      · exact ih h.2.2 hs

/-- Such ranges are disjoint and increasing. -/
theorem Within.pairwise (h : Within lo l hi) : l.Pairwise (fun s t => s.2 ≤ t.1) := by
  induction l generalizing lo with
  | nil => exact List.Pairwise.nil
  | cons s l ih => exact List.Pairwise.cons (fun _ ht => h.2.2.lo_le ht) (ih h.2.2)

end Spans
