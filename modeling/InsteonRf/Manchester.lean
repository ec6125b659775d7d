import Mathlib.Data.List.Basic
import Mathlib.Tactic

/-!
# Manchester coding of the air framing

Bit strings are lists of booleans, `true` for the character `1`. A logical `0`
is sent as the pair `10` and a logical `1` as `01`.
-/
namespace InsteonRf

abbrev Bits := List Bool

def invertBits (bits : Bits) : Bits := bits.map (!·)

def encodeBit : Bool → Bits
  | false => [true, false]
  | true => [false, true]

def manchesterEncode (bits : Bits) : Bits := bits.flatMap encodeBit

structure ManchesterError where
  pair : Bits
  bit : ℕ
  deriving DecidableEq, Repr

def decodePair : Bool → Bool → Option Bool
  | true, false => some false
  | false, true => some true
  | _, _ => none

def manchesterDecodeFrom : ℕ → Bits → Except ManchesterError Bits
  | i, a :: b :: rest =>
      match decodePair a b with
      | none => .error ⟨[a, b], i⟩
      | some x => (manchesterDecodeFrom (i + 2) rest).map (x :: ·)
  | _, _ => .ok []

/-- Decode pair by pair; a trailing odd bit is ignored. -/
def manchesterDecode (bits : Bits) : Except ManchesterError Bits := manchesterDecodeFrom 0 bits

@[simp] theorem invertBits_invertBits (bits : Bits) : invertBits (invertBits bits) = bits := by
  simp [invertBits, Function.comp_def]

@[simp] theorem length_invertBits (bits : Bits) : (invertBits bits).length = bits.length := by
  simp [invertBits]

theorem invertBits_append (a b : Bits) : invertBits (a ++ b) = invertBits a ++ invertBits b := by
  simp [invertBits]

@[simp] theorem manchesterEncode_nil : manchesterEncode [] = [] := rfl

@[simp] theorem manchesterEncode_cons (b : Bool) (bits : Bits) :
    manchesterEncode (b :: bits) = encodeBit b ++ manchesterEncode bits := rfl

theorem manchesterEncode_append (a b : Bits) :
    manchesterEncode (a ++ b) = manchesterEncode a ++ manchesterEncode b := by
  simp [manchesterEncode]

@[simp] theorem length_manchesterEncode (bits : Bits) :
    (manchesterEncode bits).length = 2 * bits.length := by
  induction bits with
  | nil => rfl
  | cons b bits ih =>
      rw [manchesterEncode_cons, List.length_append, ih, List.length_cons]
      cases b <;> simp [encodeBit] <;> omega

theorem decodeFrom_encode (bits : Bits) (i : ℕ) :
    manchesterDecodeFrom i (manchesterEncode bits) = .ok bits := by
  induction bits generalizing i with
  | nil => rfl
  | cons b bits ih =>
      cases b <;> simp [encodeBit, manchesterDecodeFrom, decodePair, ih, Except.map]

theorem manchesterDecode_encode (bits : Bits) : manchesterDecode (manchesterEncode bits) = .ok bits :=
  decodeFrom_encode bits 0

theorem encodeBit_of_decodePair {a b x : Bool} (h : decodePair a b = some x) :
    encodeBit x = [a, b] := by
  cases a <;> cases b <;> simp_all [decodePair] <;> subst h <;> rfl

/-- What was decoded, coded again, is the string that was read, up to an odd last bit. -/
theorem encode_of_decodeFrom {bits out : Bits} {i : ℕ} (h : manchesterDecodeFrom i bits = .ok out) :
    manchesterEncode out = bits.take (2 * out.length) ∧ out.length = bits.length / 2 := by
  induction i, bits using manchesterDecodeFrom.induct generalizing out with
  | case1 i a b rest hpair => simp [manchesterDecodeFrom, hpair] at h
  | case2 i a b rest x hpair ih =>
      cases hrest : manchesterDecodeFrom (i + 2) rest with
      | error e => simp [manchesterDecodeFrom, hpair, hrest, Except.map] at h
      | ok xs =>
          have hout : x :: xs = out := by
            simpa [manchesterDecodeFrom, hpair, hrest, Except.map] using h
          subst hout
          obtain ⟨henc, hlen⟩ := ih hrest
          have hdouble : 2 * (x :: xs).length = 2 * xs.length + 2 := by simp; omega
          constructor
          · rw [hdouble, manchesterEncode_cons, encodeBit_of_decodePair hpair, henc]
            rfl
          · simp only [List.length_cons, hlen]
            omega
  | case3 bits i hshort =>
      have hout : out = [] := by simpa [manchesterDecodeFrom, eq_comm] using h
      subst hout
      refine ⟨by simp, ?_⟩
      match bits, hshort with
      | [], _ => rfl
      | [a], _ => simp
      | a :: b :: rest, hs => exact absurd rfl (hs a b rest)

end InsteonRf
