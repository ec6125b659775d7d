import Mathlib.Algebra.Order.Group.Basic
import Mathlib.Tactic

/-!
# Sliding-window limits

A limiter keeps the times of its latest admissions, forgets those that have left
the window, and admits while fewer than a bound remain. However the window is
laid over the admissions, it then covers no more of them than the bound.
-/
namespace RateWindow

variable {α : Type*} [AddCommGroup α] [LinearOrder α] [IsOrderedAddMonoid α]

/-- The times that are still within a window of `now`. -/
def pruned (w now : α) (l : List α) : List α := l.filter (fun t => decide (now - t < w))

omit [IsOrderedAddMonoid α] in
theorem pruned_append (w now : α) (l m : List α) :
    pruned w now (l ++ m) = pruned w now l ++ pruned w now m := List.filter_append l m

/-- Pruning early loses nothing that a later pruning would keep. -/
theorem pruned_pruned {w a b : α} (h : a ≤ b) (l : List α) :
    pruned w b (pruned w a l) = pruned w b l := by
  rw [pruned, pruned, List.filter_filter]
  apply List.filter_congr
  intro t _
  have hkeep : b - t < w → a - t < w := fun hb => (sub_le_sub_right h t).trans_lt hb
  by_cases hb : b - t < w
  · simp [hb, hkeep hb]
  · simp [hb]

/-- Every admission found fewer than `n` others in the window before it. -/
def Limited (w : α) (n : ℕ) (times : List α) : Prop :=
  ∀ us t vs, times = us ++ t :: vs → (pruned w t us).length < n

omit [IsOrderedAddMonoid α] in
theorem limited_nil (w : α) (n : ℕ) : Limited w n ([] : List α) := by
  intro us t vs h
  simp at h

omit [IsOrderedAddMonoid α] in
theorem limited_snoc {w : α} {n : ℕ} {times : List α} (h : Limited w n times) {t : α}
    (ht : (pruned w t times).length < n) : Limited w n (times ++ [t]) := by
  intro us u vs heq
  rcases List.eq_nil_or_concat vs with rfl | ⟨vs, v, rfl⟩
  · obtain ⟨rfl, hlast⟩ := List.append_inj' heq rfl
    obtain rfl := List.singleton_inj.mp hlast
    exact ht
  · have hinit : times = us ++ u :: vs := by
      have hsplit : times ++ [t] = (us ++ u :: vs) ++ [v] := by simpa using heq
      exact (List.append_inj' hsplit rfl).1
    exact h us u vs hinit

omit [IsOrderedAddMonoid α] in
/-- Times of which any two lie less than a window apart are at most `n`. -/
theorem length_filter_le {w : α} {n : ℕ} {times : List α} (h : Limited w n times) {p : α → Bool}
    (hp : ∀ a b, p a = true → p b = true → a - b < w) : (times.filter p).length ≤ n := by
  induction times using List.reverseRecOn with
  | nil => simp
  | append_singleton times t ih =>
      have hinit : Limited w n times := by
        intro us u vs heq
        exact h us u (vs ++ [t]) (by simp [heq])
      rw [List.filter_append, List.length_append]
      by_cases ht : p t = true
      · have hsub : (times.filter p).length ≤ (pruned w t times).length := by
          refine (List.monotone_filter_right times ?_).length_le
          intro u hu
          exact decide_eq_true (hp t u ht hu)
        have hlast : (pruned w t times).length < n := h times t [] rfl
        simp only [List.filter_singleton, ht, cond_true, List.length_singleton]
        omega
      · simpa [ht] using ih hinit

theorem window_le {w : α} {n : ℕ} {times : List α} (h : Limited w n times) (start : α) :
    (times.filter (fun t => decide (start ≤ t ∧ t < start + w))).length ≤ n := by
  apply length_filter_le h
  intro a b ha hb
  obtain ⟨-, ha⟩ := of_decide_eq_true ha
  obtain ⟨hb, -⟩ := of_decide_eq_true hb
  exact sub_left_lt_of_lt_add (ha.trans_le (add_le_add_left hb w))

theorem window_le' {w : α} {n : ℕ} {times : List α} (h : Limited w n times) (start : α) :
    (times.filter (fun t => decide (start < t ∧ t ≤ start + w))).length ≤ n := by
  apply length_filter_le h
  intro a b ha hb
  obtain ⟨-, ha⟩ := of_decide_eq_true ha
  obtain ⟨hb, -⟩ := of_decide_eq_true hb
  exact sub_left_lt_of_lt_add (ha.trans_lt (add_lt_add_left hb w))

end RateWindow
