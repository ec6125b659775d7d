import Mathlib.Data.List.Basic
import Mathlib.Tactic

/-!
# Machines with inputs and outputs

A deterministic machine reads one input at a time and answers each with an
output. `run` feeds a finite sequence of inputs and collects the answers in
order. The rules below turn what one step preserves into what a run preserves.
-/
namespace Machine

variable {σ ι ο : Type*}

/-- Feed inputs to a step function, collecting one output for each. -/
def run (step : σ → ι → σ × ο) : σ → List ι → σ × List ο
  | s, [] => (s, [])
  | s, i :: is => ((run step (step s i).1 is).1, (step s i).2 :: (run step (step s i).1 is).2)

variable {step : σ → ι → σ × ο}

@[simp] theorem run_nil (s : σ) : run step s [] = (s, []) := rfl

@[simp] theorem run_cons (s : σ) (i : ι) (is : List ι) :
    run step s (i :: is) =
      ((run step (step s i).1 is).1, (step s i).2 :: (run step (step s i).1 is).2) := rfl

theorem run_append (s : σ) (is js : List ι) :
    run step s (is ++ js) =
      ((run step (run step s is).1 js).1, (run step s is).2 ++ (run step (run step s is).1 js).2) := by
  induction is generalizing s with
  | nil => rfl
  | cons i is ih => simp [ih]

/-- What holds at the start and is kept by each step holds after every run. -/
theorem invariant {P : σ → Prop} (hstep : ∀ s i, P s → P (step s i).1) {s : σ} (h : P s)
    (is : List ι) : P (run step s is).1 := by
  induction is generalizing s with
  | nil => exact h
  | cons i is ih => exact ih (hstep s i h)

/-- The same with a side condition on each input in the state that reads it. -/
def Admitted (step : σ → ι → σ × ο) (C : σ → ι → Prop) : σ → List ι → Prop
  | _, [] => True
  | s, i :: is => C s i ∧ Admitted step C (step s i).1 is

instance decidableAdmitted {C : σ → ι → Prop} [∀ s i, Decidable (C s i)] :
    ∀ (s : σ) (is : List ι), Decidable (Admitted step C s is)
  | _, [] => isTrue trivial
  | s, i :: is =>
      have := decidableAdmitted (C := C) (step s i).1 is
      inferInstanceAs (Decidable (C s i ∧ Admitted step C (step s i).1 is))

theorem Admitted.imp {C D : σ → ι → Prop} (hCD : ∀ s i, C s i → D s i) {s : σ} {is : List ι}
    (h : Admitted step C s is) : Admitted step D s is := by
  induction is generalizing s with
  | nil => trivial
  | cons i is ih => exact ⟨hCD s i h.1, ih h.2⟩

theorem admitted_of_mem {C : σ → ι → Prop} {is : List ι} (h : ∀ s, ∀ i ∈ is, C s i) (s : σ) :
    Admitted step C s is := by
  induction is generalizing s with
  | nil => trivial
  | cons i is ih => exact ⟨h s i List.mem_cons_self, ih (fun t j hj => h t j (List.mem_cons_of_mem i hj)) _⟩

theorem admitted_append {C : σ → ι → Prop} (s : σ) (is js : List ι) :
    Admitted step C s (is ++ js) ↔
      Admitted step C s is ∧ Admitted step C (run step s is).1 js := by
  induction is generalizing s with
  | nil => simp [Admitted]
  | cons i is ih => simp [Admitted, ih, and_assoc]

theorem admitted_iff {C : σ → ι → Prop} {s : σ} {is : List ι} :
    Admitted step C s is ↔ ∀ us i vs, is = us ++ i :: vs → C (run step s us).1 i := by
  constructor
  · intro h us i vs heq
    rw [heq, admitted_append] at h
    exact h.2.1
  · intro h
    induction is generalizing s with
    | nil => trivial
    | cons i is ih =>
        refine ⟨h [] i is rfl, ih ?_⟩
        intro us j vs heq
        exact h (i :: us) j vs (by rw [heq]; rfl)

/-- Where a side condition says exactly when the answer is right, so it does for a run. -/
theorem outputs_iff_admitted {C : σ → ι → Prop} {Q : ο → Prop}
    (hstep : ∀ s i, Q (step s i).2 ↔ C s i) (s : σ) (is : List ι) :
    (∀ o ∈ (run step s is).2, Q o) ↔ Admitted step C s is := by
  induction is generalizing s with
  | nil => simp [Admitted]
  | cons i is ih =>
      rw [run_cons, List.forall_mem_cons, hstep, ih]
      rfl

/-- What an admitted step keeps holds after every admitted run. -/
theorem admitted_invariant {C : σ → ι → Prop} {P : σ → Prop}
    (hstep : ∀ s i, C s i → P s → P (step s i).1) {s : σ} (h : P s) {is : List ι}
    (his : Admitted step C s is) : P (run step s is).1 := by
  induction is generalizing s with
  | nil => exact h
  | cons i is ih => exact ih (hstep s i his.1 h) his.2

/-- What each step keeps of a state and the answers so far holds of a run and its answers. -/
theorem history {P : σ → List ο → Prop}
    (hstep : ∀ s os i, P s os → P (step s i).1 (os ++ [(step s i).2])) {s : σ} {os : List ο}
    (h : P s os) (is : List ι) : P (run step s is).1 (os ++ (run step s is).2) := by
  induction is generalizing s os with
  | nil => rwa [run_nil, List.append_nil]
  | cons i is ih =>
      have hnext := ih (hstep s os i h)
      rwa [List.append_assoc, List.singleton_append] at hnext

/-- States related by a step relation that fixes the outputs answer every run alike. -/
theorem run_related {R : σ → σ → Prop}
    (hstep : ∀ s t i, R s t → (step s i).2 = (step t i).2 ∧ R (step s i).1 (step t i).1) {s t : σ}
    (h : R s t) (is : List ι) :
    (run step s is).2 = (run step t is).2 ∧ R (run step s is).1 (run step t is).1 := by
  induction is generalizing s t with
  | nil => exact ⟨rfl, h⟩
  | cons i is ih =>
      obtain ⟨hout, hnext⟩ := hstep s t i h
      obtain ⟨hrest, hlast⟩ := ih hnext
      exact ⟨by rw [run_cons, run_cons, hout, hrest], hlast⟩

end Machine
