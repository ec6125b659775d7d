import InsteonRf.Packet
import InsteonRf.Lib.HexText

/-!
# What is taken for an address

The constructor takes an integer, a string or three bytes. A string loses its separators and
has to be six characters that are read as a hexadecimal number, which is not the same as six
hexadecimal digits: a sign, the prefix `0x`, an underscore or a blank may be among them.
-/
namespace InsteonRf

/-- What `Address(addr)` is called with; an `Address` is copied as it is. -/
inductive AddressArg where
  | bool (b : Bool)
  | int (n : ℤ)
  | str (s : String)
  | seq (b : List ℤ)
  deriving DecidableEq

inductive AddressError where
  /-- `TypeError("bool is not an Insteon address")` -/
  | boolAddress
  /-- `ValueError(f"address out of range: {addr:#x}")` -/
  | outOfRange (addr : ℤ)
  /-- `ValueError(f"bad Insteon address {addr!r}")` -/
  | bad (addr : AddressArg)
  /-- `ValueError("need 3 wire bytes")` -/
  | shortWire
  deriving DecidableEq

/-- An `Address` as the constructor leaves it, with whatever integer it has stored. -/
structure AddressObject where
  value : ℤ
  deriving DecidableEq

namespace AddressObject

/-- `addr.replace(".", "").replace(":", "").replace(" ", "")` -/
def bare (s : String) : String :=
  String.ofList (((s.toList.filter (· ≠ '.')).filter (· ≠ ':')).filter (· ≠ ' '))

def init (decimal : Char → Option ℕ) : AddressArg → Except AddressError AddressObject
  | .bool _ => .error .boolAddress
  | .int n => if 0 ≤ n ∧ n ≤ 0xFFFFFF then .ok ⟨n⟩ else .error (.outOfRange n)
  | .str s =>
      let hexs := bare s
      if hexs.length ≠ 6 then .error (.bad (.str s))
      else
        match HexText.int16 decimal hexs with
        | some value => .ok ⟨value⟩
        | none => .error (.bad (.str s))
  | .seq b =>
      if b.length ≠ 3 ∨ ∃ x ∈ b, ¬ (0 ≤ x ∧ x ≤ 0xFF) then .error (.bad (.seq b))
      else
        .ok ⟨((b.getD 0 0).toNat <<< 16 ||| (b.getD 1 0).toNat <<< 8 ||| (b.getD 2 0).toNat : ℕ)⟩

def fromWire (decimal : Char → Option ℕ) (b : List ℤ) : Except AddressError AddressObject :=
  if b.length < 3 then .error .shortWire
  else init decimal (.seq [b.getD 2 0 % 256, b.getD 1 0 % 256, b.getD 0 0 % 256])

/-- High byte first; `% 256` is the mask `0xFF`. -/
def bytes (a : AddressObject) : List ℤ :=
  [(a.value >>> (16 : ℕ)) % 256, (a.value >>> (8 : ℕ)) % 256, a.value % 256]

def wire (a : AddressObject) : List ℤ := a.bytes.reverse

/-- `{:02X}` of a byte -/
def hex2 (b : ℤ) : String :=
  String.ofList [Address.hexDigit (b.toNat / 16), Address.hexDigit (b.toNat % 16)]

def str (a : AddressObject) : String := ".".intercalate (a.bytes.map hex2)

def InRange (a : AddressObject) : Prop := 0 ≤ a.value ∧ a.value < 2 ^ 24

section Init
variable {decimal : Char → Option ℕ} {a : AddressObject}

theorem init_int {n : ℤ} (h : init decimal (.int n) = .ok a) : a.InRange := by
  rw [init] at h
  split_ifs at h with hn
  cases h
  exact ⟨hn.1, by simp only; omega⟩

theorem init_bytes {x y z : ℤ} (hx : 0 ≤ x ∧ x < 256) (hy : 0 ≤ y ∧ y < 256) (hz : 0 ≤ z ∧ z < 256) :
    init decimal (.seq [x, y, z]) = .ok ⟨2 ^ 16 * x + 2 ^ 8 * y + z⟩ := by
  have hok : ¬ ([x, y, z].length ≠ 3 ∨ ∃ b ∈ [x, y, z], ¬ (0 ≤ b ∧ b ≤ 0xFF)) := by
    simp
    omega
  rw [init, if_neg hok]
  simp only [List.getD_cons_zero, List.getD_cons_succ]
  rw [or_bytes _ (by omega) (by omega)]
  congr 2
  push_cast
  omega

theorem init_seq {b : List ℤ} (h : init decimal (.seq b) = .ok a) : a.InRange := by
  have h' := h
  rw [init] at h'
  split_ifs at h' with hb
  rw [not_or, not_not] at hb
  obtain ⟨x, y, z, rfl⟩ := List.length_eq_three.mp hb.1
  have hall : ∀ c ∈ [x, y, z], 0 ≤ c ∧ c ≤ 0xFF := by simpa using hb.2
  have hx := hall x (by simp)
  have hy := hall y (by simp)
  have hz := hall z (by simp)
  rw [init_bytes (by omega) (by omega) (by omega)] at h
  cases h
  constructor
  · simp only
    omega
  · simp only
    omega

theorem exists_bytes (a : AddressObject) :
    ∃ x y z : ℕ, a.bytes = [(x : ℤ), (y : ℤ), (z : ℤ)] ∧ x < 256 ∧ y < 256 ∧ z < 256 ∧
      (a.InRange → a.value = 2 ^ 16 * x + 2 ^ 8 * y + z) := by
  have hbyte : ∀ v : ℤ, ∃ n : ℕ, v % 256 = n ∧ n < 256 := fun v => ⟨(v % 256).toNat, by omega, by omega⟩
  obtain ⟨x, hx, hx'⟩ := hbyte (a.value >>> (16 : ℕ))
  obtain ⟨y, hy, hy'⟩ := hbyte (a.value >>> (8 : ℕ))
  obtain ⟨z, hz, hz'⟩ := hbyte a.value
  refine ⟨x, y, z, by rw [bytes, hx, hy, hz], hx', hy', hz', ?_⟩
  rintro ⟨hlow, hhigh⟩
  rw [Int.shiftRight_eq_div_pow] at hx hy
  omega

theorem fromWire_wire (h : a.InRange) : fromWire decimal a.wire = .ok a := by
  obtain ⟨x, y, z, hbytes, hx, hy, hz, hvalue⟩ := a.exists_bytes
  rw [wire, hbytes, fromWire, if_neg (by simp)]
  simp only [List.reverse_cons, List.reverse_nil, List.nil_append, List.cons_append,
    List.getD_cons_zero, List.getD_cons_succ]
  rw [init_bytes (by omega) (by omega) (by omega), Int.emod_eq_of_lt (by omega) (by omega),
    Int.emod_eq_of_lt (by omega) (by omega), Int.emod_eq_of_lt (by omega) (by omega), ← hvalue h]

theorem hexValue_hexDigit {d : ℕ} (h : d < 16) : HexText.hexValue (Address.hexDigit d) = some d := by
  revert d
  decide

theorem isHexDigit_hexDigit {d : ℕ} (h : d < 16) : HexText.isHexDigit (Address.hexDigit d) := by
  rw [HexText.isHexDigit, hexValue_hexDigit h]
  rfl

theorem toList_bare_str {x y z : ℕ} (hx : x < 256) (hy : y < 256) (hz : z < 256)
    (hbytes : a.bytes = [(x : ℤ), (y : ℤ), (z : ℤ)]) :
    (bare a.str).toList = [Address.hexDigit (x / 16), Address.hexDigit (x % 16),
      Address.hexDigit (y / 16), Address.hexDigit (y % 16),
      Address.hexDigit (z / 16), Address.hexDigit (z % 16)] := by
  have hdot : ".".toList = ['.'] := rfl
  have hkept : ∀ d, d < 16 → Address.hexDigit d ≠ '.' ∧ Address.hexDigit d ≠ ':' ∧
      Address.hexDigit d ≠ ' ' := by
    decide
  have hstr : a.str.toList = [Address.hexDigit (x / 16), Address.hexDigit (x % 16), '.',
      Address.hexDigit (y / 16), Address.hexDigit (y % 16), '.',
      Address.hexDigit (z / 16), Address.hexDigit (z % 16)] := by
    rw [str, hbytes]
    simp only [List.map_cons, List.map_nil, hex2, Int.toNat_natCast, String.intercalate_cons_cons,
      String.intercalate_singleton, String.toList_append, String.toList_ofList, List.cons_append,
      List.nil_append, hdot]
  have hx₁ := hkept (x / 16) (by omega)
  have hx₂ := hkept (x % 16) (by omega)
  have hy₁ := hkept (y / 16) (by omega)
  have hy₂ := hkept (y % 16) (by omega)
  have hz₁ := hkept (z / 16) (by omega)
  have hz₂ := hkept (z % 16) (by omega)
  rw [bare, String.toList_ofList, hstr]
  simp [hx₁, hx₂, hy₁, hy₂, hz₁, hz₂]

/-- `s` without its separators is six hexadecimal digits. -/
def SixDigits (s : String) : Prop :=
  (bare s).length = 6 ∧ ∀ c ∈ (bare s).toList, HexText.isHexDigit c

/-- `s` without its separators is six characters that write a number with more than digits. -/
def SixDecorated (decimal : Char → Option ℕ) (s : String) : Prop :=
  (bare s).length = 6 ∧ HexText.Decorated decimal (bare s)

theorem bare_ne {s : String} (h : (bare s).length = 6) : (bare s).toList ≠ [] := by
  apply List.ne_nil_of_length_pos
  rw [String.length_toList, h]
  decide

theorem init_digits {s : String} (h : SixDigits s) :
    init decimal (.str s) = .ok ⟨HexText.numeral (bare s).toList⟩ := by
  simp only [init, h.1, ne_eq, not_true_eq_false, if_false, HexText.int16_digits (bare_ne h.1) h.2]

theorem init_str_isOk_iff (s : String) :
    (∃ a, init decimal (.str s) = .ok a) ↔ SixDigits s ∨ SixDecorated decimal s := by
  have hread : (∃ a, init decimal (.str s) = .ok a) ↔
      (bare s).length = 6 ∧ (HexText.int16 decimal (bare s)).isSome := by
    simp only [init]
    split_ifs with hlen
    · simp [hlen]
    · cases HexText.int16 decimal (bare s) with
      | some v => simp [not_not.mp hlen]
      | none => simp
  rw [hread, SixDigits, SixDecorated, ← and_or_left]
  exact and_congr_right fun hlen => HexText.int16_isSome_iff (bare_ne hlen)

def Negative (decimal : Char → Option ℕ) (x : AddressArg) : Prop :=
  ∃ s v, x = .str s ∧ HexText.int16 decimal (bare s) = some v ∧ v < 0

/-- Only a sign brings an address out of its range. -/
theorem inRange_iff {x : AddressArg} (h : init decimal x = .ok a) :
    a.InRange ↔ ¬ Negative decimal x := by
  cases x with
  | bool b => exact absurd h (by simp [init])
  | int n => exact iff_of_true (init_int h) (by simp [Negative])
  | seq b => exact iff_of_true (init_seq h) (by simp [Negative])
  | str s =>
      simp only [init] at h
      split_ifs at h with hlen
      cases hv : HexText.int16 decimal (bare s) with
      | none => simp [hv] at h
      | some v =>
          simp only [hv, Except.ok.injEq] at h
          have hlt := HexText.int16_lt hv
          rw [not_not.mp hlen] at hlt
          simp only [Negative, AddressArg.str.injEq, InRange, ← h]
          constructor
          · rintro ⟨hpos, -⟩ ⟨t, w, rfl, hw, hneg⟩
            rw [hv, Option.some.injEq] at hw
            omega
          · intro hno
            have hpos : ¬ v < 0 := fun hneg => hno ⟨s, v, rfl, hv, hneg⟩
            exact ⟨by omega, by omega⟩

theorem inRange_of_digits {s : String} (h : SixDigits s) (hs : init decimal (.str s) = .ok a) :
    a.InRange := by
  rw [inRange_iff hs]
  rintro ⟨t, v, ht, hv, hneg⟩
  cases ht
  rw [HexText.int16_digits (bare_ne h.1) h.2, Option.some.injEq] at hv
  omega

theorem init_str_str (decimal : Char → Option ℕ) (h : a.InRange) : init decimal (.str a.str) = .ok a := by
  obtain ⟨x, y, z, hbytes, hx, hy, hz, hvalue⟩ := a.exists_bytes
  have hlist := toList_bare_str hx hy hz hbytes
  have hsix : SixDigits a.str := by
    refine ⟨by rw [← String.length_toList, hlist]; rfl, ?_⟩
    rw [hlist]
    simp only [List.forall_mem_cons]
    exact ⟨isHexDigit_hexDigit (by omega), isHexDigit_hexDigit (by omega),
      isHexDigit_hexDigit (by omega), isHexDigit_hexDigit (by omega),
      isHexDigit_hexDigit (by omega), isHexDigit_hexDigit (by omega), by simp⟩
  have hnumeral : (HexText.numeral (bare a.str).toList : ℤ) = a.value := by
    have hd : ∀ n, n < 256 → HexText.hexValue (Address.hexDigit (n / 16)) = some (n / 16) ∧
        HexText.hexValue (Address.hexDigit (n % 16)) = some (n % 16) :=
      fun n hn => ⟨hexValue_hexDigit (by omega), hexValue_hexDigit (by omega)⟩
    rw [hlist, hvalue h]
    simp only [HexText.numeral, List.filterMap_cons, List.filterMap_nil, (hd x hx).1, (hd x hx).2,
      (hd y hy).1, (hd y hy).2, (hd z hz).1, (hd z hz).2, List.foldl_cons, List.foldl_nil]
    omega
  rw [init_digits hsix, hnumeral]

/-- Addresses of 24 bits are told apart by their strings. -/
theorem str_injective (decimal : Char → Option ℕ) {b : AddressObject} (ha : a.InRange) (hb : b.InRange) (h : a.str = b.str) :
    a = b := by
  have hback := init_str_str decimal ha
  rw [h, init_str_str decimal hb] at hback
  exact (Except.ok.inj hback).symm

end Init

end AddressObject

def Address.object (a : Address) : AddressObject := ⟨a.value.toNat⟩

namespace AddressObject

structure Right (decimal : Char → Option ℕ) (x : AddressArg) : Prop where
  accepts : ∀ s, x = .str s → ((∃ a, init decimal x = .ok a) ↔ SixDigits s)
  value : ∀ a, init decimal x = .ok a → a.InRange
  text : ∀ a, init decimal x = .ok a → init decimal (.str a.str) = .ok a
  wire : ∀ a, init decimal x = .ok a → fromWire decimal a.wire = .ok a

structure RightPair (decimal : Char → Option ℕ) (x y : AddressArg) : Prop where
  left : Right decimal x
  right : Right decimal y
  equal : ∀ a b, init decimal x = .ok a → init decimal y = .ok b → (a = b ↔ a.str = b.str)

def Decorated (decimal : Char → Option ℕ) (x : AddressArg) : Prop :=
  ∃ s, x = .str s ∧ SixDecorated decimal s

theorem right_iff (decimal : Char → Option ℕ) (x : AddressArg) :
    Right decimal x ↔ ¬ Decorated decimal x := by
  constructor
  · rintro h ⟨s, rfl, hs⟩
    have hsix := (h.accepts s rfl).mp ((init_str_isOk_iff s).mpr (.inr hs))
    exact HexText.not_decorated hsix.2 hs.2
  · intro h
    have haccepts : ∀ s, x = .str s → ((∃ a, init decimal x = .ok a) ↔ SixDigits s) := by
      rintro s rfl
      rw [init_str_isOk_iff]
      exact or_iff_left (fun hs => h ⟨s, rfl, hs⟩)
    have hvalue : ∀ a, init decimal x = .ok a → a.InRange := by
      intro a ha
      cases x with
      | bool b => exact absurd ha (by simp [init])
      | int n => exact init_int ha
      | str s => exact inRange_of_digits ((haccepts s rfl).mp ⟨a, ha⟩) ha
      | seq b => exact init_seq ha
    exact ⟨haccepts, hvalue, fun a ha => init_str_str decimal (hvalue a ha), fun a ha => fromWire_wire (hvalue a ha)⟩

/-- The constructor keeps its promises to two arguments unless one of them is such a string. -/
theorem rightPair_iff (decimal : Char → Option ℕ) (x y : AddressArg) :
    RightPair decimal x y ↔ ¬ Decorated decimal x ∧ ¬ Decorated decimal y := by
  rw [← right_iff, ← right_iff]
  constructor
  · intro h
    exact ⟨h.left, h.right⟩
  · rintro ⟨hx, hy⟩
    refine ⟨hx, hy, ?_⟩
    intro a b ha hb
    constructor
    · rintro rfl
      rfl
    · exact str_injective decimal (hx.value a ha) (hy.value b hb)

/-- Six characters with a sign are taken for an address, and a negative one is written like
another address that it is not equal to. -/
theorem init_minus :
    init (fun _ => none) (.str "+12345") = .ok ⟨0x12345⟩ ∧
    init (fun _ => none) (.str "-12345") = .ok ⟨-0x12345⟩ ∧
    init (fun _ => none) (.str "FE.DC.BB") = .ok ⟨0xFEDCBB⟩ ∧
    (⟨-0x12345⟩ : AddressObject).str = "FE.DC.BB" ∧
    ¬ ∀ x y, RightPair (fun _ => none) x y := by
  have hminus : init (fun _ => none) (.str "-12345") = .ok ⟨-0x12345⟩ := by decide
  refine ⟨by decide, hminus, by decide, by decide, ?_⟩
  intro h
  have hrange := (h (.str "-12345") (.str "-12345")).left.value _ hminus
  exact absurd hrange.1 (by decide)

end AddressObject

end InsteonRf
