import InsteonRf.MqttCapture

/-!
# The board's base64

A board writes its captures in base64 by hand, three bytes at a time, with a check of its own
for the second and the third. The host's decoder takes every such text and returns the bytes.
-/
namespace InsteonRf.Board

def b64 : List Char := "ABCDEFGHIJKLMNOPQRSTUVWXYZabcdefghijklmnopqrstuvwxyz0123456789+/".toList

/-- `B64[v & 0x3F]` -/
def b64Char (v : BitVec 32) : Char := b64.getD (v &&& 0x3F#32).toNat '='

/-- `buf[i]` as a `uint32_t` -/
def word (buf : List Byte) (i : ℕ) : BitVec 32 := (buf.getD i 0).setWidth 32

def pack (a b c : BitVec 32) : BitVec 32 := a <<< 16 ||| b <<< 8 ||| c

/-- The loop of `publish_capture_`, from `buf[i]` on. -/
def blobFrom (buf : List Byte) (i : ℕ) : List Char :=
  if i < buf.length then
    let a := word buf i
    let b := if i + 1 < buf.length then word buf (i + 1) else 0
    let c := if i + 2 < buf.length then word buf (i + 2) else 0
    let v := pack a b c
    b64Char (v >>> 18) :: b64Char (v >>> 12) ::
      (if i + 1 < buf.length then b64Char (v >>> 6) else '=') ::
      (if i + 2 < buf.length then b64Char v else '=') :: blobFrom buf (i + 3)
  else []
termination_by buf.length - i

/-- The capture as it stands in the payload. -/
def captureBlob (buf : List Byte) : List Char := blobFrom buf 0

theorem toNat_pack (a b c : Byte) :
    (pack (a.setWidth 32) (b.setWidth 32) (c.setWidth 32)).toNat =
      2 ^ 16 * a.toNat + 2 ^ 8 * b.toNat + c.toNat := by
  have ha := a.isLt
  have hb := b.isLt
  have hc := c.isLt
  rw [← or_bytes _ hb hc]
  simp only [pack, BitVec.toNat_or, BitVec.toNat_shiftLeft, BitVec.toNat_setWidth,
    Nat.shiftLeft_eq]
  congr 2
  · omega
  · omega
  · omega

/-- The shift brings a group of six bits to the front, and the mask leaves no other. -/
theorem b64Char_shift (v : BitVec 32) (k : ℕ) :
    b64Char (v >>> k) = Base64.digit (v.toNat / 2 ^ k % 64) := by
  have hmask : ((v >>> k) &&& 0x3F#32).toNat = v.toNat / 2 ^ k % 64 := by
    rw [BitVec.toNat_and, BitVec.toNat_ushiftRight, Nat.shiftRight_eq_div_pow]
    exact Nat.and_two_pow_sub_one_eq_mod _ 6
  rw [b64Char, hmask]
  rfl

section Groups
variable (a b c : Byte)

theorem b64Char_first : b64Char (pack (a.setWidth 32) (b.setWidth 32) (c.setWidth 32) >>> 18) =
    Base64.digit (Base64.sextet₀ a) := by
  have ha := a.isLt
  have hb := b.isLt
  have hc := c.isLt
  rw [b64Char_shift, toNat_pack, Base64.sextet₀]
  congr 1
  omega

theorem b64Char_second : b64Char (pack (a.setWidth 32) (b.setWidth 32) (c.setWidth 32) >>> 12) =
    Base64.digit (Base64.sextet₁ a b) := by
  have hb := b.isLt
  have hc := c.isLt
  rw [b64Char_shift, toNat_pack, Base64.sextet₁]
  congr 1
  omega

theorem b64Char_third : b64Char (pack (a.setWidth 32) (b.setWidth 32) (c.setWidth 32) >>> 6) =
    Base64.digit (Base64.sextet₂ b c) := by
  have hc := c.isLt
  rw [b64Char_shift, toNat_pack, Base64.sextet₂]
  congr 1
  omega

theorem b64Char_fourth : b64Char (pack (a.setWidth 32) (b.setWidth 32) (c.setWidth 32)) =
    Base64.digit (Base64.sextet₃ c) := by
  have hshift := b64Char_shift (pack (a.setWidth 32) (b.setWidth 32) (c.setWidth 32)) 0
  rw [BitVec.ushiftRight_zero] at hshift
  rw [hshift, toNat_pack, Base64.sextet₃]
  congr 1
  omega

end Groups

theorem word_eq {buf : List Byte} {i : ℕ} (h : i < buf.length) :
    word buf i = buf[i].setWidth 32 := by
  rw [word, List.getD_eq_getElem?_getD, List.getElem?_eq_getElem h]
  rfl

/-- From `buf[i]` on the loop writes the base64 of what is left. -/
theorem blobFrom_eq (buf : List Byte) (i : ℕ) : blobFrom buf i = Base64.encode (buf.drop i) := by
  have hzero : (0 : BitVec 32) = (0 : Byte).setWidth 32 := rfl
  induction i using blobFrom.induct buf with
  | case1 i h₀ ih =>
      rw [blobFrom, if_pos h₀, ih, List.drop_eq_getElem_cons h₀]
      by_cases h₁ : i + 1 < buf.length
      · rw [List.drop_eq_getElem_cons h₁]
        by_cases h₂ : i + 2 < buf.length
        · rw [List.drop_eq_getElem_cons h₂, Base64.encode]
          simp only [h₁, h₂, if_true, word_eq h₀, word_eq h₁, word_eq h₂, b64Char_first,
            b64Char_second, b64Char_third, b64Char_fourth]
        · rw [List.drop_eq_nil_of_le (by omega : buf.length ≤ i + 1 + 1),
            List.drop_eq_nil_of_le (by omega : buf.length ≤ i + 3), Base64.encode, Base64.encode]
          simp only [h₁, h₂, if_true, if_false, word_eq h₀, word_eq h₁, hzero, b64Char_first,
            b64Char_second, b64Char_third]
      · have h₂ : ¬ i + 2 < buf.length := by omega
        rw [List.drop_eq_nil_of_le (by omega : buf.length ≤ i + 1),
          List.drop_eq_nil_of_le (by omega : buf.length ≤ i + 3), Base64.encode, Base64.encode]
        simp only [h₁, h₂, if_false, word_eq h₀, hzero, b64Char_first, b64Char_second]
  | case2 i h =>
      rw [blobFrom, if_neg h, List.drop_eq_nil_of_le (Nat.not_lt.mp h), Base64.encode]

/-- Every capture can be read back: its text is made of whole groups of the alphabet, padded at
the end only and by as much as is missing, and it decodes to the bytes of the buffer. -/
theorem decode_captureBlob (buf : List Byte) :
    Base64.decode (captureBlob buf) = some buf ∧
      (captureBlob buf).length % 4 = 0 ∧
      ∃ body, captureBlob buf = body ++ List.replicate ((3 - buf.length % 3) % 3) '=' ∧
        ∀ c ∈ body, c ∈ Base64.alphabet := by
  rw [captureBlob, blobFrom_eq, List.drop_zero]
  exact ⟨Base64.decode_encode buf, Base64.length_encode buf, Base64.encode_padded buf⟩

end InsteonRf.Board
