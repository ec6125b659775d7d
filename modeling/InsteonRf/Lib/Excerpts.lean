import Mathlib.Data.List.Basic
import Mathlib.Tactic

/-!
# Excerpts of a stream

Blocks taken out of a stream, in order and each as it stands there, with a bounded number of
skipped stretches between them. What follows the last block is left open.
-/

/-- The blocks come one behind the other from the stream, with at most `n` skips. -/
inductive Excerpts {α : Type*} : ℕ → List (List α) → List α → Prop
  | stop (n : ℕ) (stream : List α) : Excerpts n [] stream
  | take {n : ℕ} {blocks : List (List α)} {stream : List α} (block : List α) :
      Excerpts n blocks stream → Excerpts n (block :: blocks) (block ++ stream)
  | skip {n : ℕ} {blocks : List (List α)} {stream : List α} (gap : List α) :
      Excerpts n blocks stream → Excerpts (n + 1) blocks (gap ++ stream)

namespace Excerpts
variable {α : Type*} {n : ℕ} {blocks : List (List α)} {stream : List α}

theorem takes (front : List (List α)) (h : Excerpts n blocks stream) :
    Excerpts n (front ++ blocks) (front.flatten ++ stream) := by
  induction front with
  | nil => exact h
  | cons block front ih =>
      rw [List.cons_append, List.flatten_cons, List.append_assoc]
      exact take block ih

theorem flatten_sublist (h : Excerpts n blocks stream) : blocks.flatten.Sublist stream := by
  induction h with
  | stop n stream => exact List.nil_sublist stream
  | take block _ ih => exact (List.Sublist.refl block).append ih
  | skip gap _ ih => exact ih.trans (List.sublist_append_right gap _)

/-- Each block stands in the stream without a break. -/
theorem infix_of_mem (h : Excerpts n blocks stream) {block : List α} (hb : block ∈ blocks) :
    block <:+: stream := by
  induction h with
  | stop n stream => cases hb
  | take first _ ih =>
      rcases List.mem_cons.mp hb with rfl | hb
      · exact (List.prefix_append block _).isInfix
      · exact (ih hb).trans (List.suffix_append first _).isInfix
  | skip gap _ ih => exact (ih hb).trans (List.suffix_append gap _).isInfix

end Excerpts
