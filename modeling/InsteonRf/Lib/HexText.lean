import Mathlib.Data.List.Chain
import Mathlib.Data.List.TakeWhile
import Mathlib.Tactic

/-!
# Hexadecimal numerals

What Python's `int(text, 16)` makes of a string: blanks around it, a sign, the prefix `0x`
and single underscores between the digits are allowed. Digits and blanks of other scripts
count as their ASCII counterparts; which characters are digits is up to the Unicode
database.
-/
namespace HexText

def isBlank (c : Char) : Bool := decide (c.toNat ∈ [9, 10, 11, 12, 13, 32])

/-- The blanks beyond ASCII. -/
def isWideBlank (c : Char) : Bool :=
  decide (c.toNat ∈ [0x85, 0xA0, 0x1680, 0x2028, 0x2029, 0x202F, 0x205F, 0x3000]) ||
    (decide (0x2000 ≤ c.toNat) && decide (c.toNat ≤ 0x200A))

/-- The ASCII character a character counts as; `?` stands in no numeral. -/
def toAscii (decimal : Char → Option ℕ) (c : Char) : Char :=
  if c.toNat < 127 then c
  else if isWideBlank c then ' '
  else
    match decimal c with
    | some d => Char.ofNat ('0'.toNat + d)
    | none => '?'

def hexValue (c : Char) : Option ℕ :=
  if '0' ≤ c ∧ c ≤ '9' then some (c.toNat - '0'.toNat)
  else if 'a' ≤ c ∧ c ≤ 'f' then some (c.toNat - 'a'.toNat + 10)
  else if 'A' ≤ c ∧ c ≤ 'F' then some (c.toNat - 'A'.toNat + 10)
  else none

def splitSign : List Char → Bool × List Char
  | '-' :: l => (true, l)
  | '+' :: l => (false, l)
  | l => (false, l)

def dropPrefix : List Char → List Char
  | '0' :: x :: l =>
      if x = 'x' ∨ x = 'X' then if l.head? = some '_' then l.tail else l
      else '0' :: x :: l
  | l => l

def isNumeral (c : Char) : Bool := (hexValue c).isSome || c == '_'

/-- Digits with single underscores between them. -/
def wellSpaced (l : List Char) : Bool :=
  decide (l ≠ []) && decide (l.head? ≠ some '_') && decide (l.getLast? ≠ some '_') &&
    decide (l.IsChain (fun a b => ¬ (a = '_' ∧ b = '_')))

def numeral (l : List Char) : ℕ := (l.filterMap hexValue).foldl (fun n d => 16 * n + d) 0

def readHex (l : List Char) : Option ℤ :=
  let (negative, l) := splitSign (l.dropWhile isBlank)
  let l := dropPrefix l
  let digits := l.takeWhile isNumeral
  if wellSpaced digits && (l.dropWhile isNumeral).all isBlank then
    some (if negative then -(numeral digits : ℤ) else numeral digits)
  else none

/-- `int(text, 16)`; `none` where it raises. -/
def int16 (decimal : Char → Option ℕ) (text : String) : Option ℤ :=
  readHex (text.toList.map (toAscii decimal))

theorem map_toAscii {decimal : Char → Option ℕ} {l : List Char} (h : ∀ c ∈ l, c.toNat < 127) :
    l.map (toAscii decimal) = l := by
  refine (List.map_congr_left fun c hc => ?_).trans (List.map_id _)
  rw [toAscii, if_pos (h c hc)]
  rfl

theorem int16_of_ascii {decimal : Char → Option ℕ} {text : String}
    (h : ∀ c ∈ text.toList, c.toNat < 127) : int16 decimal text = readHex text.toList := by
  rw [int16, map_toAscii h]

structure Parts where
  lead : List Char
  sign : List Char
  zeroX : List Char
  digits : List Char
  trail : List Char

namespace Parts

def text (p : Parts) : List Char := p.lead ++ (p.sign ++ (p.zeroX ++ (p.digits ++ p.trail)))

def value (p : Parts) : ℤ := if p.sign = ['-'] then -(numeral p.digits : ℤ) else numeral p.digits

structure Valid (p : Parts) : Prop where
  lead : ∀ c ∈ p.lead, isBlank c
  sign : p.sign = [] ∨ p.sign = ['+'] ∨ p.sign = ['-']
  zeroX : p.zeroX = [] ∨ ∃ x, (x = 'x' ∨ x = 'X') ∧ (p.zeroX = ['0', x] ∨ p.zeroX = ['0', x, '_'])
  digits : ∀ c ∈ p.digits, isNumeral c
  spaced : wellSpaced p.digits
  trail : ∀ c ∈ p.trail, isBlank c

end Parts

/-- Characters are told apart by a class that one of them is in. -/
theorem ne_of_class {p : Char → Bool} {c d : Char} (h : p c) (hd : p d = false) : c ≠ d := by
  rintro rfl
  rw [h] at hd
  exact absurd hd (by decide)

theorem isNumeral_of_isBlank {c : Char} (h : isBlank c) : isNumeral c = false := by
  simp only [isBlank, decide_eq_true_eq] at h
  have hc : c = Char.ofNat c.toNat := (Char.ofNat_toNat c).symm
  rw [hc]
  simp only [List.mem_cons, List.not_mem_nil, or_false] at h
  rcases h with h | h | h | h | h | h <;> rw [h] <;> decide

theorem exists_cons_of_spaced {digits : List Char} (h : wellSpaced digits) :
    ∃ c l, digits = c :: l ∧ c ≠ '_' := by
  simp only [wellSpaced, Bool.and_eq_true, decide_eq_true_eq] at h
  obtain ⟨⟨⟨hne, hhead⟩, -⟩, -⟩ := h
  obtain ⟨c, l, rfl⟩ := List.exists_cons_of_ne_nil hne
  exact ⟨c, l, rfl, by simpa using hhead⟩

theorem dropPrefix_of_ne {l : List Char} (h : ∀ c, l[1]? = some c → c ≠ 'x' ∧ c ≠ 'X') :
    dropPrefix l = l := by
  unfold dropPrefix
  split
  · next x l =>
      obtain ⟨hx, hX⟩ := h x rfl
      rw [if_neg (by tauto)]
  · rfl

theorem splitSign_of_ne {c : Char} (l : List Char) (hminus : c ≠ '-') (hplus : c ≠ '+') :
    splitSign (c :: l) = (false, c :: l) := by
  unfold splitSign
  split
  · next h => exact absurd (List.cons.inj h).1 hminus
  · next h => exact absurd (List.cons.inj h).1 hplus
  · rfl

namespace Parts
variable {p : Parts}

theorem Valid.dropPrefix (h : p.Valid) :
    dropPrefix (p.zeroX ++ (p.digits ++ p.trail)) = p.digits ++ p.trail := by
  obtain ⟨d, ds, hdigits, hscore⟩ := exists_cons_of_spaced h.spaced
  rcases h.zeroX with hz | ⟨x, hx, hz | hz⟩
  · rw [hz, List.nil_append]
    apply dropPrefix_of_ne
    intro c hc
    have hmem : c ∈ p.digits ∨ c ∈ p.trail := by
      rw [← List.mem_append]
      exact List.mem_of_getElem? hc
    rcases hmem with hin | hin
    · exact ⟨ne_of_class (h.digits c hin) (by decide), ne_of_class (h.digits c hin) (by decide)⟩
    · exact ⟨ne_of_class (h.trail c hin) (by decide), ne_of_class (h.trail c hin) (by decide)⟩
  · simp [hz, HexText.dropPrefix, hx, hdigits, hscore]
  · simp [hz, HexText.dropPrefix, hx]

theorem Valid.head (h : p.Valid) :
    ∃ c l, p.zeroX ++ (p.digits ++ p.trail) = c :: l ∧ isNumeral c := by
  rcases h.zeroX with hz | ⟨x, -, hz | hz⟩
  · obtain ⟨d, ds, hdigits, -⟩ := exists_cons_of_spaced h.spaced
    exact ⟨d, ds ++ p.trail, by simp [hz, hdigits], h.digits d (by simp [hdigits])⟩
  · exact ⟨'0', x :: (p.digits ++ p.trail), by simp [hz], by decide⟩
  · exact ⟨'0', x :: '_' :: (p.digits ++ p.trail), by simp [hz], by decide⟩

theorem Valid.splitSign (h : p.Valid) :
    splitSign (p.sign ++ (p.zeroX ++ (p.digits ++ p.trail))) =
      (decide (p.sign = ['-']), p.zeroX ++ (p.digits ++ p.trail)) := by
  rcases h.sign with hs | hs | hs
  · obtain ⟨c, l, hrest, hc⟩ := h.head
    rw [hs, hrest, List.nil_append,
      splitSign_of_ne l (ne_of_class hc (by decide)) (ne_of_class hc (by decide))]
    simp
  · simp [hs, HexText.splitSign]
  · simp [hs, HexText.splitSign]

theorem Valid.dropBlanks (h : p.Valid) :
    p.text.dropWhile isBlank = p.sign ++ (p.zeroX ++ (p.digits ++ p.trail)) := by
  rw [text, List.dropWhile_append_of_pos h.lead]
  rcases h.sign with hs | hs | hs
  · obtain ⟨c, l, hrest, hc⟩ := h.head
    have hblank : isBlank c = false := by
      by_contra hb
      have hnot := isNumeral_of_isBlank (by simpa using hb)
      rw [hc] at hnot
      exact absurd hnot (by decide)
    rw [hs, hrest, List.nil_append, List.dropWhile_cons_of_neg (by simp [hblank])]
  · rw [hs]
    rfl
  · rw [hs]
    rfl

theorem Valid.takeDigits (h : p.Valid) :
    (p.digits ++ p.trail).takeWhile isNumeral = p.digits ∧
      (p.digits ++ p.trail).dropWhile isNumeral = p.trail := by
  rw [List.takeWhile_append_of_pos h.digits, List.dropWhile_append_of_pos h.digits]
  cases htrail : p.trail with
  | nil => simp
  | cons c l =>
      have hc : isNumeral c = false := isNumeral_of_isBlank (h.trail c (by simp [htrail]))
      simp [hc]

end Parts

theorem splitSign_parts (l : List Char) :
    ∃ sign, (sign = [] ∨ sign = ['+'] ∨ sign = ['-']) ∧ l = sign ++ (splitSign l).2 ∧
      ((splitSign l).1 = true ↔ sign = ['-']) := by
  unfold splitSign
  split
  · exact ⟨['-'], by simp⟩
  · exact ⟨['+'], by simp⟩
  · exact ⟨[], by simp⟩

theorem dropPrefix_parts (l : List Char) :
    ∃ zeroX, (zeroX = [] ∨ ∃ x, (x = 'x' ∨ x = 'X') ∧ (zeroX = ['0', x] ∨ zeroX = ['0', x, '_'])) ∧
      l = zeroX ++ dropPrefix l := by
  unfold dropPrefix
  split
  · next x l =>
      split_ifs with hx hscore
      · obtain ⟨m, rfl⟩ := List.head?_eq_some_iff.mp hscore
        exact ⟨['0', x, '_'], .inr ⟨x, hx, .inr rfl⟩, rfl⟩
      · exact ⟨['0', x], .inr ⟨x, hx, .inl rfl⟩, rfl⟩
      · exact ⟨[], .inl rfl, rfl⟩
  · exact ⟨[], .inl rfl, rfl⟩

/-- What is read is what is written from these parts. -/
theorem readHex_eq_some_iff {l : List Char} {v : ℤ} :
    readHex l = some v ↔ ∃ p : Parts, p.Valid ∧ p.text = l ∧ p.value = v := by
  constructor
  · intro h
    obtain ⟨sign, hsign, htext, hneg⟩ := splitSign_parts (l.dropWhile isBlank)
    rcases hsplit : splitSign (l.dropWhile isBlank) with ⟨negative, rest⟩
    rw [hsplit] at htext hneg
    obtain ⟨zeroX, hzero, hrest⟩ := dropPrefix_parts rest
    rw [readHex, hsplit] at h
    dsimp only at h htext hneg
    have hok : (wellSpaced ((dropPrefix rest).takeWhile isNumeral) &&
        ((dropPrefix rest).dropWhile isNumeral).all isBlank) = true := by
      by_contra hno
      rw [if_neg hno] at h
      exact absurd h (by simp)
    rw [if_pos hok] at h
    simp only [Bool.and_eq_true, List.all_eq_true] at hok
    refine ⟨⟨l.takeWhile isBlank, sign, zeroX, _, _⟩,
      ⟨fun c hc => List.mem_takeWhile_imp hc, hsign, hzero,
        fun c hc => List.mem_takeWhile_imp hc, hok.1, hok.2⟩, ?_, ?_⟩
    · simp only [Parts.text]
      rw [List.takeWhile_append_dropWhile, ← hrest, ← htext, List.takeWhile_append_dropWhile]
    · simp only [Parts.value, ← hneg]
      exact Option.some.inj h
  · rintro ⟨p, hp, rfl, rfl⟩
    rw [readHex, hp.dropBlanks]
    simp only [hp.splitSign, hp.dropPrefix, hp.takeDigits.1, hp.takeDigits.2, hp.spaced,
      Bool.true_and]
    rw [if_pos (List.all_eq_true.mpr hp.trail)]
    simp [Parts.value]

def isHexDigit (c : Char) : Bool := (hexValue c).isSome

theorem toNat_mono {c d : Char} (h : c ≤ d) : c.toNat ≤ d.toNat := UInt32.le_iff_toNat_le.mp h

theorem toNat_of_isHexDigit {c : Char} (h : isHexDigit c) : c.toNat < 127 := by
  unfold isHexDigit hexValue at h
  split_ifs at h with h₁ h₂ h₃
  · exact lt_of_le_of_lt (toNat_mono h₁.2) (by decide)
  · exact lt_of_le_of_lt (toNat_mono h₂.2) (by decide)
  · exact lt_of_le_of_lt (toNat_mono h₃.2) (by decide)
  · exact absurd h (by decide)

theorem isNumeral_iff (c : Char) : isNumeral c ↔ isHexDigit c ∨ c = '_' := by
  simp [isNumeral, isHexDigit]

def Parts.Plain (p : Parts) : Prop :=
  p.lead = [] ∧ p.sign = [] ∧ p.zeroX = [] ∧ '_' ∉ p.digits ∧ p.trail = []

theorem Parts.Valid.plain_iff {p : Parts} (h : p.Valid) : p.Plain ↔ ∀ c ∈ p.text, isHexDigit c := by
  have hnone : ∀ l : List Char, (∀ c ∈ l, isBlank c) → (∀ c ∈ l, isHexDigit c) → l = [] := by
    intro l hblank hhex
    apply List.eq_nil_iff_forall_not_mem.mpr
    intro c hc
    have hnot := isNumeral_of_isBlank (hblank c hc)
    rw [(isNumeral_iff c).mpr (.inl (hhex c hc))] at hnot
    exact absurd hnot (by decide)
  constructor
  · rintro ⟨hlead, hsign, hzero, hscore, htrail⟩ c hc
    rw [text, hlead, hsign, hzero, htrail, List.append_nil] at hc
    refine ((isNumeral_iff c).mp (h.digits c hc)).resolve_right ?_
    rintro rfl
    exact hscore hc
  · intro hall
    simp only [text, List.mem_append] at hall
    refine ⟨hnone _ h.lead (fun c hc => hall c (.inl hc)), ?_, ?_, ?_,
      hnone _ h.trail (fun c hc => hall c (by tauto))⟩
    · rcases h.sign with hs | hs | hs
      · exact hs
      · exact absurd (hall '+' (by simp [hs])) (by decide)
      · exact absurd (hall '-' (by simp [hs])) (by decide)
    · rcases h.zeroX with hz | ⟨x, hx, hz⟩
      · exact hz
      · have hmem : x ∈ p.zeroX := by rcases hz with hz | hz <;> simp [hz]
        have hhex := hall x (by tauto)
        rcases hx with rfl | rfl <;> exact absurd hhex (by decide)
    · intro hmem
      exact absurd (hall '_' (by tauto)) (by decide)

theorem readHex_digits {l : List Char} (hne : l ≠ []) (h : ∀ c ∈ l, isHexDigit c) :
    readHex l = some (numeral l : ℤ) := by
  have hscore : ∀ c ∈ l, c ≠ '_' := fun c hc => ne_of_class (h c hc) (by decide)
  refine readHex_eq_some_iff.mpr ⟨⟨[], [], [], l, []⟩, ?_, by simp [Parts.text], rfl⟩
  refine ⟨by simp, .inl rfl, .inl rfl, fun c hc => (isNumeral_iff c).mpr (.inl (h c hc)), ?_, by simp⟩
  simp only [wellSpaced, Bool.and_eq_true, decide_eq_true_eq]
  refine ⟨⟨⟨hne, ?_⟩, ?_⟩, ?_⟩
  · intro hhead
    exact hscore '_' (List.mem_of_head? hhead) rfl
  · intro hlast
    exact hscore '_' (List.mem_of_getLast? hlast) rfl
  · rw [List.isChain_iff_getElem]
    rintro i hi ⟨hi', -⟩
    exact hscore _ (List.getElem_mem _) hi'

theorem numeral_concat (l : List Char) (c : Char) :
    numeral (l ++ [c]) = ((hexValue c).map (16 * numeral l + ·)).getD (numeral l) := by
  cases h : hexValue c <;> simp [numeral, h]

theorem hexValue_lt {c : Char} {d : ℕ} (h : hexValue c = some d) : d < 16 := by
  unfold hexValue at h
  split_ifs at h with h₁ h₂ h₃
  all_goals simp only [Option.some.injEq] at h
  · have hup := toNat_mono h₁.2
    have : '9'.toNat = 57 := rfl
    have : '0'.toNat = 48 := rfl
    omega
  · have hup := toNat_mono h₂.2
    have : 'f'.toNat = 102 := rfl
    have : 'a'.toNat = 97 := rfl
    omega
  · have hup := toNat_mono h₃.2
    have : 'F'.toNat = 70 := rfl
    have : 'A'.toNat = 65 := rfl
    omega

theorem numeral_lt (l : List Char) : numeral l < 16 ^ l.length := by
  induction l using List.reverseRecOn with
  | nil => decide
  | append_singleton l c ih =>
      rw [numeral_concat, List.length_append, List.length_singleton, pow_succ]
      cases h : hexValue c with
      | none =>
          simp only [Option.map_none, Option.getD_none]
          omega
      | some d =>
          have hd := hexValue_lt h
          simp only [Option.map_some, Option.getD_some]
          omega

/-- A text of so many characters is read as a number of so many digits at most. -/
theorem int16_lt {decimal : Char → Option ℕ} {text : String} {v : ℤ}
    (h : int16 decimal text = some v) : v < 16 ^ text.length := by
  obtain ⟨p, -, htext, rfl⟩ := readHex_eq_some_iff.mp h
  have hlen : p.digits.length ≤ text.length := by
    have hall := congrArg List.length htext
    simp only [Parts.text, List.length_append, List.length_map, String.length_toList] at hall
    omega
  have hlt : numeral p.digits < 16 ^ text.length :=
    (numeral_lt p.digits).trans_le (Nat.pow_le_pow_right (by decide) hlen)
  have hcast : (numeral p.digits : ℤ) < 16 ^ text.length := by exact_mod_cast hlt
  rw [Parts.value]
  split_ifs
  · omega
  · exact hcast

/-- A numeral with more to it than digits: a blank, a sign, the prefix, an underscore, or a
character beyond ASCII. -/
def Decorated (decimal : Char → Option ℕ) (text : String) : Prop :=
  ∃ p : Parts, p.Valid ∧ p.text = text.toList.map (toAscii decimal) ∧
    (¬ p.Plain ∨ ∃ c ∈ text.toList, 127 ≤ c.toNat)

section Decimal
variable {decimal : Char → Option ℕ} {text : String}

theorem int16_digits (hne : text.toList ≠ []) (h : ∀ c ∈ text.toList, isHexDigit c) :
    int16 decimal text = some (numeral text.toList : ℤ) := by
  rw [int16_of_ascii fun c hc => toNat_of_isHexDigit (h c hc), readHex_digits hne h]

/-- The strings that are read: digits alone, and the decorated numerals. -/
theorem int16_isSome_iff (hne : text.toList ≠ []) :
    (int16 decimal text).isSome ↔ (∀ c ∈ text.toList, isHexDigit c) ∨ Decorated decimal text := by
  constructor
  · intro h
    obtain ⟨v, hv⟩ := Option.isSome_iff_exists.mp h
    obtain ⟨p, hp, htext, -⟩ := readHex_eq_some_iff.mp hv
    by_cases hplain : p.Plain ∧ ∀ c ∈ text.toList, c.toNat < 127
    · left
      intro c hc
      have hmem : c ∈ p.text := by
        rw [htext, List.mem_map]
        exact ⟨c, hc, by rw [toAscii, if_pos (hplain.2 c hc)]⟩
      exact hp.plain_iff.mp hplain.1 c hmem
    · right
      refine ⟨p, hp, htext, ?_⟩
      rw [not_and_or] at hplain
      simpa using hplain
  · rintro (h | ⟨p, hp, htext, -⟩)
    · rw [int16_digits hne h]
      rfl
    · rw [int16, readHex_eq_some_iff.mpr ⟨p, hp, htext, rfl⟩]
      rfl

theorem not_decorated (h : ∀ c ∈ text.toList, isHexDigit c) : ¬ Decorated decimal text := by
  have hascii := fun c hc => toNat_of_isHexDigit (h c hc)
  rintro ⟨p, hp, htext, hmore⟩
  rw [map_toAscii hascii] at htext
  rcases hmore with hplain | ⟨c, hc, hwide⟩
  · exact hplain (hp.plain_iff.mpr (by rw [htext]; exact h))
  · have := hascii c hc
    omega

end Decimal

def hexDigit (n : ℕ) : Char := "0123456789ABCDEF".toList.getD n '?'

/-- `f"{n:04X}"` of a number below 2^16. -/
def hex4 (n : ℕ) : String :=
  String.ofList [hexDigit (n / 4096), hexDigit (n / 256 % 16), hexDigit (n / 16 % 16),
    hexDigit (n % 16)]

example : (int16 (fun _ => none) "CEAA", int16 (fun _ => none) " -0x_1f \n",
    int16 (fun _ => none) "1__2", int16 (fun _ => none) "0x") =
      (some 52906, some (-31), none, none) := by
  decide

end HexText
