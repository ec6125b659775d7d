import Mathlib.Tactic

/-!
# Numbered generations

The generations of a file: number 0 is the current one, number 1 the one before it, and so on,
each of them there or not. A rotation renames them one number up, from the oldest down, and
starts a new one.
-/
namespace Generations

variable {α : Type*}

/-- Rename `src` to `dst`, which is overwritten if it is there. -/
def replace (f : ℕ → Option α) (src dst : ℕ) : ℕ → Option α :=
  fun n => if n = dst then f src else if n = src then none else f n

/-- Rename a generation, if it is there, one number up. -/
def age (f : ℕ → Option α) (n : ℕ) : ℕ → Option α :=
  if (f n).isSome then replace f n (n + 1) else f

/-- Rename the generations `m`, ..., 1, in this order. -/
def shift (f : ℕ → Option α) : ℕ → ℕ → Option α
  | 0 => f
  | m + 1 => shift (age f (m + 1)) m

def ofList (gens : List α) : ℕ → Option α := fun n => gens[n]?

theorem age_self (f : ℕ → Option α) (n : ℕ) : age f n n = none := by
  rw [age]
  split_ifs with h
  · simp [replace]
  · simpa using h

/-- Where a generation that is missing has no elder, its elder's number is free for it. -/
theorem age_succ {f : ℕ → Option α} {n : ℕ} (h : f n = none → f (n + 1) = none) :
    age f n (n + 1) = f n := by
  rw [age]
  split_ifs with hn
  · simp [replace]
  · have hnone : f n = none := by simpa using hn
    rw [h hnone, hnone]

theorem age_other (f : ℕ → Option α) {n k : ℕ} (h : k ≠ n) (hsucc : k ≠ n + 1) :
    age f n k = f k := by
  rw [age]
  split_ifs
  · simp [replace, h, hsucc]
  · rfl

theorem shift_zero (f : ℕ → Option α) (m : ℕ) : shift f m 0 = f 0 := by
  induction m generalizing f with
  | zero => rfl
  | succ m ih => rw [shift, ih, age_other f (by omega) (by omega)]

theorem shift_above (f : ℕ → Option α) {m k : ℕ} (h : m + 1 < k) : shift f m k = f k := by
  induction m generalizing f with
  | zero => rfl
  | succ m ih => rw [shift, ih _ (by omega), age_other f (by omega) (by omega)]

/-- Every generation of the cascade ends one number up: going down from the oldest, none is
overwritten before it has moved. -/
theorem shift_succ {f : ℕ → Option α} {m k : ℕ} (h : f m = none → f (m + 1) = none)
    (hpos : 0 < k) (hk : k ≤ m) : shift f m (k + 1) = f k := by
  induction m generalizing f with
  | zero => omega
  | succ m ih =>
      rw [shift]
      by_cases hkm : k = m + 1
      · rw [hkm, shift_above _ (by omega), age_succ h]
      · rw [ih (fun _ => age_self f (m + 1)) (by omega), age_other f (by omega) (by omega)]

def touch (fresh : α) (f : ℕ → Option α) : ℕ → Option α :=
  fun n => if n = 0 then some ((f 0).getD fresh) else f n

/-- A rotation that keeps `backups` generations besides the current one puts the new generation in
front of the others, and the oldest goes. -/
theorem rotate_ofList (fresh : α) {backups : ℕ} (hpos : 0 < backups) {gens : List α}
    (hlen : gens.length ≤ backups + 1) :
    touch fresh (replace (shift (ofList gens) (backups - 1)) 0 1) =
      ofList ((fresh :: gens).take (backups + 1)) := by
  have hclosed : ∀ n, ofList gens n = none → ofList gens (n + 1) = none := by
    intro n hn
    rw [ofList, List.getElem?_eq_none_iff] at hn ⊢
    omega
  funext n
  rw [ofList, List.getElem?_take]
  rcases n with _ | _ | n
  · rfl
  · rw [if_pos (by omega)]
    exact shift_zero (ofList gens) (backups - 1)
  · show shift (ofList gens) (backups - 1) (n + 2) = _
    split_ifs with hn
    · exact shift_succ (hclosed _) (by omega) (by omega)
    · rw [shift_above _ (by omega), ofList, List.getElem?_eq_none_iff]
      omega

end Generations
