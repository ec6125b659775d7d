import Mathlib.Tactic

/-!
# Computations that log what they read

A computation returns a value and the places it has read on the way, in their order. What is
said of all these places is said of the parts of the computation.
-/

structure Traced (ι α : Type*) where
  value : α
  reads : List ι

namespace Traced

variable {ι α β : Type*}

instance : Monad (Traced ι) where
  pure a := ⟨a, []⟩
  bind t f := ⟨(f t.value).value, t.reads ++ (f t.value).reads⟩

def read (memory : ι → α) (i : ι) : Traced ι α := ⟨memory i, [i]⟩

def Within (P : ι → Prop) (t : Traced ι α) : Prop := ∀ i ∈ t.reads, P i

section Rules
variable {P : ι → Prop}

@[simp] theorem value_read (memory : ι → α) (i : ι) : (read memory i).value = memory i := rfl

@[simp] theorem value_pure (a : α) : (pure a : Traced ι α).value = a := rfl

@[simp] theorem value_bind {α β : Type _} (t : Traced ι α) (f : α → Traced ι β) :
    (t >>= f).value = (f t.value).value := rfl

@[simp] theorem within_pure (a : α) : Within P (pure a : Traced ι α) := by
  intro i hi
  exact absurd hi (by simp [pure])

@[simp] theorem within_read (memory : ι → α) (i : ι) : Within P (read memory i) ↔ P i := by
  simp [Within, read]

@[simp] theorem within_bind {α β : Type _} (t : Traced ι α) (f : α → Traced ι β) :
    Within P (t >>= f) ↔ Within P t ∧ Within P (f t.value) := by
  simp [Within, bind, or_imp, forall_and]

theorem within_ite {c : Prop} [Decidable c] {t u : Traced ι α} (ht : c → Within P t)
    (hu : ¬ c → Within P u) : Within P (if c then t else u) := by
  split_ifs with h
  · exact ht h
  · exact hu h

end Rules

end Traced
