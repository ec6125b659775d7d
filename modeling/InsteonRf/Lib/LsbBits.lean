import Mathlib.Data.Nat.Bitwise
import Mathlib.Tactic

/-!
# Numbers as bit strings

Least significant bit first, and the same the other way round.
-/
namespace LsbBits

/-- The lowest `w` bits of a number, least significant first. -/
def lsbBits (w n : ℕ) : List Bool := (List.range w).map n.testBit

def ofLsbBits : List Bool → ℕ
  | [] => 0
  | b :: l => b.toNat + 2 * ofLsbBits l

@[simp] theorem length_lsbBits (w n : ℕ) : (lsbBits w n).length = w := by simp [lsbBits]

theorem ofLsbBits_lt (l : List Bool) : ofLsbBits l < 2 ^ l.length := by
  induction l with
  | nil => simp [ofLsbBits]
  | cons b l ih =>
      have hb : b.toNat ≤ 1 := by cases b <;> simp
      rw [ofLsbBits, List.length_cons, pow_succ]
      omega

theorem testBit_ofLsbBits (l : List Bool) (i : ℕ) :
    (ofLsbBits l).testBit i = l.getD i false := by
  induction l generalizing i with
  | nil => simp [ofLsbBits]
  | cons b l ih =>
      cases i with
      | zero =>
          rw [ofLsbBits, Nat.testBit_zero]
          cases b <;> simp [Nat.add_mod]
      | succ i =>
          have hb : b.toNat < 2 := by cases b <;> simp
          have hdiv : (b.toNat + 2 * ofLsbBits l) / 2 = ofLsbBits l := by omega
          rw [ofLsbBits, Nat.testBit_succ, hdiv, ih, List.getD_cons_succ]

theorem lsbBits_ofLsbBits (l : List Bool) : lsbBits l.length (ofLsbBits l) = l := by
  apply List.ext_getElem (by simp)
  intro i h₁ h₂
  simp [lsbBits, testBit_ofLsbBits, h₂]

theorem ofLsbBits_lsbBits {w n : ℕ} (h : n < 2 ^ w) : ofLsbBits (lsbBits w n) = n := by
  apply Nat.eq_of_testBit_eq
  intro i
  rw [testBit_ofLsbBits, List.getD_eq_getElem?_getD, lsbBits, List.getElem?_map]
  by_cases hi : i < w
  · simp [List.getElem?_range hi]
  · have hhigh : n.testBit i = false :=
      Nat.testBit_lt_two_pow (h.trans_le (Nat.pow_le_pow_right (by omega) (by omega)))
    have hout : (List.range w)[i]? = none := List.getElem?_eq_none (by simp; omega)
    simp [hout, hhigh]

def msbBits (w n : ℕ) : List Bool := (lsbBits w n).reverse

def ofMsbBits (l : List Bool) : ℕ := ofLsbBits l.reverse

@[simp] theorem length_msbBits (w n : ℕ) : (msbBits w n).length = w := by simp [msbBits]

theorem ofMsbBits_lt (l : List Bool) : ofMsbBits l < 2 ^ l.length := by
  have hlt := ofLsbBits_lt l.reverse
  rwa [List.length_reverse] at hlt

theorem msbBits_ofMsbBits (l : List Bool) : msbBits l.length (ofMsbBits l) = l := by
  have hreverse := lsbBits_ofLsbBits l.reverse
  rw [List.length_reverse] at hreverse
  rw [msbBits, ofMsbBits, hreverse, List.reverse_reverse]

end LsbBits
