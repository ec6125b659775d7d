import Mathlib.Data.List.Basic
import Mathlib.Tactic

/-!
# Searching for a pattern

`find` is the leftmost occurrence of a pattern at or after a position, and
`findAll` the successive occurrences found by searching again behind each one.
-/
namespace StringSearch

variable {α : Type*} [DecidableEq α]

/-- The pattern occurs in the text at this position. -/
def OccursAt (pat text : List α) (i : ℕ) : Prop := pat <+: text.drop i

instance (pat text : List α) (i : ℕ) : Decidable (OccursAt pat text i) :=
  inferInstanceAs (Decidable (pat <+: text.drop i))

def index (pat : List α) : List α → Option ℕ
  | [] => if pat = [] then some 0 else none
  | a :: l => if pat <+: a :: l then some 0 else (index pat l).map (· + 1)

def find (pat text : List α) (start : ℕ) : Option ℕ :=
  (index pat (text.drop start)).map (start + ·)

theorem index_eq_none {pat text : List α} (h : index pat text = none) (i : ℕ) :
    ¬ OccursAt pat text i := by
  induction text generalizing i with
  | nil =>
      have hne : pat ≠ [] := by
        intro hp
        simp [index, hp] at h
      intro hocc
      rw [OccursAt, List.drop_nil, List.prefix_nil] at hocc
      exact hne hocc
  | cons a l ih =>
      by_cases hp : pat <+: a :: l
      · simp [index, hp] at h
      · have hl : index pat l = none := by simpa [index, hp] using h
        cases i with
        | zero => exact hp
        | succ i => exact ih hl i

theorem index_eq_some {pat text : List α} {n : ℕ} (h : index pat text = some n) :
    OccursAt pat text n ∧ ∀ i < n, ¬ OccursAt pat text i := by
  induction text generalizing n with
  | nil =>
      by_cases hp : pat = []
      · have hn : n = 0 := by simpa [index, hp, eq_comm] using h
        subst hn
        exact ⟨by simp [OccursAt, hp], by simp⟩
      · simp [index, hp] at h
  | cons a l ih =>
      by_cases hp : pat <+: a :: l
      · have hn : n = 0 := by simpa [index, hp, eq_comm] using h
        subst hn
        exact ⟨hp, by simp⟩
      · obtain ⟨m, hm, rfl⟩ : ∃ m, index pat l = some m ∧ m + 1 = n := by
          simpa [index, hp] using h
        obtain ⟨hocc, hfirst⟩ := ih hm
        refine ⟨hocc, ?_⟩
        intro i hi
        cases i with
        | zero => exact hp
        | succ i => exact hfirst i (Nat.lt_of_succ_lt_succ hi)

theorem index_of_first {pat text : List α} {n : ℕ} (hn : OccursAt pat text n)
    (hfirst : ∀ i < n, ¬ OccursAt pat text i) : index pat text = some n := by
  cases h : index pat text with
  | none => exact absurd hn (index_eq_none h n)
  | some m =>
      obtain ⟨hocc, hmin⟩ := index_eq_some h
      rcases Nat.lt_trichotomy m n with hlt | heq | hgt
      · exact absurd hocc (hfirst m hlt)
      · rw [heq]
      · exact absurd hn (hmin n hgt)

omit [DecidableEq α] in
theorem occursAt_drop (pat text : List α) (i j : ℕ) :
    OccursAt pat (text.drop i) j ↔ OccursAt pat text (i + j) := by
  rw [OccursAt, OccursAt, List.drop_drop]

omit [DecidableEq α] in
/-- Whether a pattern stands in the front of a text does not depend on what follows. -/
theorem occursAt_append_left {pat front behind : List α} {i : ℕ}
    (h : i + pat.length ≤ front.length) :
    OccursAt pat (front ++ behind) i ↔ OccursAt pat front i := by
  rw [OccursAt, OccursAt, List.drop_append_of_le_length (by omega)]
  constructor
  · intro hocc
    apply List.prefix_of_prefix_length_le hocc (List.prefix_append _ behind)
    rw [List.length_drop]
    omega
  · exact fun hocc => List.prefix_append_of_prefix hocc

omit [DecidableEq α] in
theorem OccursAt.bound {pat text : List α} {n : ℕ} (h : OccursAt pat text n)
    (hpat : pat ≠ []) : n + pat.length ≤ text.length := by
  have hlen := h.length_le
  have hpos := List.length_pos_of_ne_nil hpat
  rw [List.length_drop] at hlen
  omega

theorem find_of_first {pat text : List α} {start n : ℕ} (hle : start ≤ n)
    (hn : OccursAt pat text n) (hfirst : ∀ i, start ≤ i → i < n → ¬ OccursAt pat text i) :
    find pat text start = some n := by
  obtain ⟨k, rfl⟩ := Nat.exists_eq_add_of_le hle
  have hindex : index pat (text.drop start) = some k := by
    apply index_of_first ((occursAt_drop _ _ _ _).mpr hn)
    intro i hi hocc
    exact hfirst (start + i) (by omega) (by omega) ((occursAt_drop _ _ _ _).mp hocc)
  rw [find, hindex]
  rfl

theorem find_eq_some {pat text : List α} {start n : ℕ} (h : find pat text start = some n) :
    start ≤ n ∧ OccursAt pat text n ∧ ∀ i, start ≤ i → i < n → ¬ OccursAt pat text i := by
  obtain ⟨m, hm, rfl⟩ := Option.map_eq_some_iff.mp h
  obtain ⟨hocc, hfirst⟩ := index_eq_some hm
  refine ⟨Nat.le_add_right _ _, (occursAt_drop _ _ _ _).mp hocc, ?_⟩
  intro i hle hlt hi
  obtain ⟨j, rfl⟩ := Nat.exists_eq_add_of_le hle
  exact hfirst j (by omega) ((occursAt_drop _ _ _ _).mpr hi)

theorem find_of_absent {pat text : List α} {start : ℕ}
    (h : ∀ i, start ≤ i → ¬ OccursAt pat text i) : find pat text start = none := by
  cases hf : find pat text start with
  | none => rfl
  | some n =>
      obtain ⟨hle, hocc, -⟩ := find_eq_some hf
      exact absurd hocc (h n hle)

/-- Occurrences found one behind the other; each search starts past the last hit. -/
def findAll (pat text : List α) : ℕ → ℕ → List ℕ
  | 0, _ => []
  | fuel + 1, start =>
      match find pat text start with
      | none => []
      | some n => n :: findAll pat text fuel (n + pat.length)

/-- The hits are all the occurrences when these lie at least a pattern apart. -/
theorem findAll_eq {pat text : List α} (hpat : pat ≠ []) {occ : List ℕ} {start fuel : ℕ}
    (hall : ∀ i, start ≤ i → (OccursAt pat text i ↔ i ∈ occ))
    (hsep : occ.Pairwise (fun i j => i + pat.length ≤ j)) (hstart : ∀ i ∈ occ, start ≤ i)
    (hfuel : occ.length < fuel) : findAll pat text fuel start = occ := by
  have hpos := List.length_pos_of_ne_nil hpat
  induction occ generalizing start fuel with
  | nil =>
      obtain ⟨fuel, rfl⟩ := Nat.exists_eq_succ_of_ne_zero (Nat.ne_of_gt hfuel)
      have hnone : find pat text start = none :=
        find_of_absent (fun i hi hocc => by simpa using (hall i hi).mp hocc)
      simp [findAll, hnone]
  | cons n occ ih =>
      obtain ⟨fuel, rfl⟩ := Nat.exists_eq_succ_of_ne_zero (Nat.ne_of_gt (Nat.zero_lt_of_lt hfuel))
      rw [List.pairwise_cons] at hsep
      have hn : start ≤ n := hstart n (by simp)
      have hfind : find pat text start = some n := by
        apply find_of_first hn ((hall n hn).mpr (by simp))
        intro i hi hlt habs
        rcases List.mem_cons.mp ((hall i hi).mp habs) with rfl | hmem
        · omega
        · have := hsep.1 i hmem
          omega
      simp only [findAll, hfind, List.cons.injEq, true_and]
      refine ih ?_ hsep.2 hsep.1 (by simpa using hfuel)
      intro i hi
      rw [hall i (by omega), List.mem_cons]
      exact ⟨fun h => h.resolve_left (by omega), Or.inr⟩

theorem occursAt_of_mem_findAll {pat text : List α} {fuel start n : ℕ}
    (h : n ∈ findAll pat text fuel start) : OccursAt pat text n := by
  induction fuel generalizing start with
  | zero => simp [findAll] at h
  | succ fuel ih =>
      cases hf : find pat text start with
      | none => simp [findAll, hf] at h
      | some m =>
          simp only [findAll, hf, List.mem_cons] at h
          rcases h with rfl | hrest
          · exact (find_eq_some hf).2.1
          · exact ih hrest

theorem findAll_sorted {pat text : List α} (hpat : pat ≠ []) (fuel start : ℕ) :
    (findAll pat text fuel start).Pairwise (· < ·) ∧ ∀ n ∈ findAll pat text fuel start, start ≤ n := by
  have hpos := List.length_pos_of_ne_nil hpat
  induction fuel generalizing start with
  | zero => simp [findAll]
  | succ fuel ih =>
      cases hf : find pat text start with
      | none => simp [findAll, hf]
      | some m =>
          have hle := (find_eq_some hf).1
          obtain ⟨hsorted, hlow⟩ := ih (m + pat.length)
          simp only [findAll, hf]
          constructor
          · apply List.Pairwise.cons _ hsorted
            intro n hn
            have := hlow n hn
            omega
          · intro n hn
            rcases List.mem_cons.mp hn with rfl | hrest
            · exact hle
            · have := hlow n hrest
              omega

theorem find_map {β : Type*} [DecidableEq β] {f : α → β} (hf : f.Injective) (pat text : List α)
    (start : ℕ) : find (pat.map f) (text.map f) start = find pat text start := by
  have hindex : ∀ text : List α, index (pat.map f) (text.map f) = index pat text := by
    intro text
    induction text with
    | nil => simp [index]
    | cons a l ih =>
        have hpre : pat.map f <+: f a :: l.map f ↔ pat <+: a :: l := by
          rw [← List.map_cons, List.prefix_map_iff_of_injective hf]
        rw [List.map_cons, index, index, ih]
        simp only [hpre]
  rw [find, find, ← List.map_drop, hindex]

end StringSearch
