import Mathlib.Data.List.Basic
import Mathlib.Tactic

/-!
# Base64

The standard alphabet with padding. Three bytes make four characters, and the decoder
takes nothing that is not whole and in the alphabet.
-/
namespace Base64

abbrev Octet := BitVec 8

def alphabet : List Char :=
  "ABCDEFGHIJKLMNOPQRSTUVWXYZabcdefghijklmnopqrstuvwxyz0123456789+/".toList

def digit (n : ℕ) : Char := alphabet.getD n '='

def value (c : Char) : Option ℕ := alphabet.idxOf? c

def sextet₀ (a : Octet) : ℕ := a.toNat / 4
def sextet₁ (a b : Octet) : ℕ := a.toNat % 4 * 16 + b.toNat / 16
def sextet₂ (b c : Octet) : ℕ := b.toNat % 16 * 4 + c.toNat / 64
def sextet₃ (c : Octet) : ℕ := c.toNat % 64

def octet₀ (w x : ℕ) : Octet := BitVec.ofNat 8 (w * 4 + x / 16)
def octet₁ (x y : ℕ) : Octet := BitVec.ofNat 8 (x % 16 * 16 + y / 4)
def octet₂ (y z : ℕ) : Octet := BitVec.ofNat 8 (y % 4 * 64 + z)

def encode : List Octet → List Char
  | [] => []
  | [a] => [digit (sextet₀ a), digit (sextet₁ a 0), '=', '=']
  | [a, b] => [digit (sextet₀ a), digit (sextet₁ a b), digit (sextet₂ b 0), '=']
  | a :: b :: c :: rest =>
      digit (sextet₀ a) :: digit (sextet₁ a b) :: digit (sextet₂ b c) :: digit (sextet₃ c) ::
        encode rest

def decode : List Char → Option (List Octet)
  | [] => some []
  | w :: x :: y :: z :: rest => do
      let w ← value w
      let x ← value x
      if rest = [] ∧ z = '=' then
        if y = '=' then return [octet₀ w x]
        let y ← value y
        return [octet₀ w x, octet₁ x y]
      let y ← value y
      let z ← value z
      let bytes ← decode rest
      return octet₀ w x :: octet₁ x y :: octet₂ y z :: bytes
  | _ => none

theorem value_digit {n : ℕ} (h : n < 64) : value (digit n) = some n := by
  have hall : ∀ n < 64, value (digit n) = some n := by decide +kernel
  exact hall n h

theorem digit_ne_pad {n : ℕ} (h : n < 64) : digit n ≠ '=' := by
  intro hpad
  have hvalue := value_digit h
  rw [hpad] at hvalue
  cases hvalue

section Sextets
variable (a b c : Octet)

theorem sextet₀_lt : sextet₀ a < 64 := by
  have ha := a.isLt
  rw [sextet₀]
  omega

theorem sextet₁_lt : sextet₁ a b < 64 := by
  have hb := b.isLt
  rw [sextet₁]
  omega

theorem sextet₂_lt : sextet₂ b c < 64 := by
  have hc := c.isLt
  rw [sextet₂]
  omega

theorem sextet₃_lt : sextet₃ c < 64 := by
  rw [sextet₃]
  omega

theorem octet₀_sextets : octet₀ (sextet₀ a) (sextet₁ a b) = a := by
  have ha := a.isLt
  have hb := b.isLt
  rw [octet₀, sextet₀, sextet₁]
  apply BitVec.eq_of_toNat_eq
  rw [BitVec.toNat_ofNat]
  omega

theorem octet₁_sextets : octet₁ (sextet₁ a b) (sextet₂ b c) = b := by
  have hb := b.isLt
  have hc := c.isLt
  rw [octet₁, sextet₁, sextet₂]
  apply BitVec.eq_of_toNat_eq
  rw [BitVec.toNat_ofNat]
  omega

theorem octet₂_sextets : octet₂ (sextet₂ b c) (sextet₃ c) = c := by
  have hc := c.isLt
  rw [octet₂, sextet₂, sextet₃]
  apply BitVec.eq_of_toNat_eq
  rw [BitVec.toNat_ofNat]
  omega

end Sextets

theorem decode_encode (l : List Octet) : decode (encode l) = some l := by
  induction l using encode.induct with
  | case1 => rfl
  | case2 a =>
      rw [encode, decode, value_digit (sextet₀_lt a), value_digit (sextet₁_lt a 0)]
      change some [octet₀ _ _] = _
      rw [octet₀_sextets]
  | case3 a b =>
      rw [encode, decode, value_digit (sextet₀_lt a), value_digit (sextet₁_lt a b),
        value_digit (sextet₂_lt b 0)]
      simp only [true_and, if_true, if_neg (digit_ne_pad (sextet₂_lt b 0)), bind, Option.bind,
        pure, octet₀_sextets, octet₁_sextets]
  | case4 a b c rest ih =>
      have hpad : ¬ (encode rest = [] ∧ digit (sextet₃ c) = '=') :=
        fun h => digit_ne_pad (sextet₃_lt c) h.2
      rw [encode, decode, value_digit (sextet₀_lt a), value_digit (sextet₁_lt a b),
        value_digit (sextet₂_lt b c), value_digit (sextet₃_lt c), ih]
      simp only [if_neg hpad, bind, Option.bind, pure, octet₀_sextets, octet₁_sextets,
        octet₂_sextets]

def decodeText (text : String) : Option (List Octet) := decode text.toList

theorem decodeText_encode (l : List Octet) : decodeText (String.ofList (encode l)) = some l := by
  rw [decodeText, String.toList_ofList, decode_encode]

theorem digit_mem_alphabet {n : ℕ} (h : n < 64) : digit n ∈ alphabet := by
  have hlt : n < alphabet.length := h
  rw [digit, List.getD_eq_getElem?_getD, List.getElem?_eq_getElem hlt]
  exact List.getElem_mem hlt

theorem length_encode (l : List Octet) : (encode l).length % 4 = 0 := by
  induction l using encode.induct with
  | case1 => rfl
  | case2 a => simp [encode]
  | case3 a b => simp [encode]
  | case4 a b c rest ih =>
      rw [encode]
      simp only [List.length_cons]
      omega

/-- The pad stands at the end, one character for each byte that is missing from a group. -/
theorem encode_padded (l : List Octet) :
    ∃ body, encode l = body ++ List.replicate ((3 - l.length % 3) % 3) '=' ∧
      ∀ c ∈ body, c ∈ alphabet := by
  induction l using encode.induct with
  | case1 => exact ⟨[], rfl, by simp⟩
  | case2 a =>
      refine ⟨[digit (sextet₀ a), digit (sextet₁ a 0)], rfl, ?_⟩
      simp only [List.forall_mem_cons, List.not_mem_nil, false_implies, implies_true, and_true]
      exact ⟨digit_mem_alphabet (sextet₀_lt a), digit_mem_alphabet (sextet₁_lt a 0)⟩
  | case3 a b =>
      refine ⟨[digit (sextet₀ a), digit (sextet₁ a b), digit (sextet₂ b 0)], rfl, ?_⟩
      simp only [List.forall_mem_cons, List.not_mem_nil, false_implies, implies_true, and_true]
      exact ⟨digit_mem_alphabet (sextet₀_lt a), digit_mem_alphabet (sextet₁_lt a b),
        digit_mem_alphabet (sextet₂_lt b 0)⟩
  | case4 a b c rest ih =>
      obtain ⟨body, hbody, hall⟩ := ih
      refine ⟨digit (sextet₀ a) :: digit (sextet₁ a b) :: digit (sextet₂ b c) ::
        digit (sextet₃ c) :: body, ?_, ?_⟩
      · have hmod : (a :: b :: c :: rest).length % 3 = rest.length % 3 := by
          simp only [List.length_cons]
          omega
        rw [encode, hbody, hmod]
        rfl
      · simp only [List.forall_mem_cons]
        exact ⟨digit_mem_alphabet (sextet₀_lt a), digit_mem_alphabet (sextet₁_lt a b),
          digit_mem_alphabet (sextet₂_lt b c), digit_mem_alphabet (sextet₃_lt c), hall⟩

end Base64
