import InsteonRf.RecoverAgreement

/-!
# The two polarities of a burst

Which polarity a burst has is decided once, by the first exact start header. The header
offset that the correlator hands over is taken in the polarity the bits came in when there
is no such header; of a burst and its inverse at most one is then read as a packet.
-/
namespace InsteonRf
open LsbBits Selection StringSearch SignedIndex Rounding

/-- An exact start header stands somewhere, in one of the polarities. -/
def HasHeader (line : Bits) : Prop :=
  find startHeader line 0 ≠ none ∨ find startHeaderInv line 0 ≠ none

theorem not_injective : Function.Injective (fun b : Bool => !b) := by
  decide

theorem find_invertBits (pat line : Bits) :
    find pat (invertBits line) 0 = find (invertBits pat) line 0 := by
  have h := find_map not_injective (invertBits pat) line 0
  have hback : (invertBits pat).map (fun b => !b) = pat := invertBits_invertBits pat
  rw [hback] at h
  exact h

theorem find_header_invertBits (line : Bits) :
    find startHeader (invertBits line) 0 = find startHeaderInv line 0 ∧
      find startHeaderInv (invertBits line) 0 = find startHeader line 0 := by
  constructor
  · rw [find_invertBits, startHeaderInv]
  · rw [find_invertBits, startHeaderInv, invertBits_invertBits]

/-- No position holds the header in both polarities. -/
theorem header_polarity {line : Bits} {a b : ℕ} (ha : find startHeader line 0 = some a)
    (hb : find startHeaderInv line 0 = some b) : a ≠ b := by
  rintro rfl
  obtain ⟨-, ⟨u, hu⟩, -⟩ := find_eq_some ha
  obtain ⟨-, ⟨v, hv⟩, -⟩ := find_eq_some hb
  have hhead := congrArg List.head? (hu.trans hv.symm)
  simp [startHeader, startHeaderInv, invertBits] at hhead

theorem headerInverted_invertBits {line : Bits} (h : HasHeader line) :
    headerInverted (invertBits line) = !headerInverted line := by
  obtain ⟨hpos, hneg⟩ := find_header_invertBits line
  rw [headerInverted, headerInverted, hpos, hneg]
  cases ha : find startHeader line 0 with
  | none =>
      cases hb : find startHeaderInv line 0 with
      | none => exact absurd h (by simp [HasHeader, ha, hb])
      | some b => rfl
  | some a =>
      cases hb : find startHeaderInv line 0 with
      | none => rfl
      | some b =>
          have hne := header_polarity ha hb
          rcases Nat.lt_or_gt_of_ne hne with hlt | hgt
          · simp [hlt, hlt.le]
          · simp [hgt, hgt.le]

theorem findHeaders_eq (line : Bits) :
    (findHeaders line).1 = if headerInverted line then invertBits line else line := rfl

/-- A burst with a header is normalised to the same bits from either polarity. -/
theorem findHeaders_invertBits {line : Bits} (h : HasHeader line) :
    findHeaders (invertBits line) = findHeaders line := by
  rw [findHeaders, findHeaders, headerInverted_invertBits h]
  cases headerInverted line <;> simp

theorem findHeaders_absent {line : Bits} (h : ¬ HasHeader line) : findHeaders line = (line, []) := by
  rw [HasHeader, not_or, not_not, not_not] at h
  have hpolarity : headerInverted line = false := by
    rw [headerInverted, h.1, h.2]
  rw [findHeaders, hpolarity]
  simp [findAll, h.1]

theorem hasHeader_invertBits (line : Bits) : HasHeader (invertBits line) ↔ HasHeader line := by
  obtain ⟨hpos, hneg⟩ := find_header_invertBits line
  rw [HasHeader, HasHeader, hpos, hneg]
  exact or_comm

theorem parseBits_invertBits (line : Bits) (ts : Option Time) (minBytes : ℕ) :
    parseBits (invertBits line) ts minBytes = parseBits line ts minBytes := by
  by_cases h : HasHeader line
  · rw [parseBits, parseBits, findHeaders_invertBits h]
  · have h' : ¬ HasHeader (invertBits line) := by
      rw [hasHeader_invertBits]
      exact h
    rw [parseBits, parseBits, findHeaders_absent h, findHeaders_absent h']
    rfl

namespace Recover

theorem softFor_invertBits {line : Bits} {v : List ℚ} (hlen : line.length ≤ v.length) :
    softFor (invertBits line) (some (v.map (- ·))) = (softFor line (some v)).map (- ·) := by
  simp only [softFor, length_invertBits, List.length_map, hlen, if_true]
  rw [← List.map_take, List.map_map, List.map_map]
  exact List.map_congr_left (fun s _ => float32_neg s)

/-- Inverting the bits and negating the soft values leaves the normalised values. -/
theorem alignedSoft_invertBits {line : Bits} {v : List ℚ} (hlen : line.length ≤ v.length)
    (h : HasHeader line) :
    alignedSoft (invertBits line) (some (v.map (- ·))) = alignedSoft line (some v) := by
  have hne : invertBits line ≠ line := by
    intro heq
    cases line with
    | nil => simp [HasHeader, find, index, startHeader, startHeaderInv, invertBits] at h
    | cons b line => cases b <;> simp [invertBits] at heq
  have hback : ((softFor line (some v)).map (- ·)).map (- ·) = softFor line (some v) := by
    rw [List.map_map]
    simp
  simp only [alignedSoft, findHeaders_eq, headerInverted_invertBits h, softFor_invertBits hlen]
  by_cases hinv : headerInverted line = true
  · simp [hinv, hne]
  · simp only [Bool.not_eq_true] at hinv
    simp [hinv, hne.symm, hback]

/-- Two readings of one pair in the two polarities are not both `1`. -/
def Opposed (x y : Reading) : Prop := ¬ (x.value = true ∧ y.value = true)

theorem opposed_neg (s₀ s₁ : ℚ) : Opposed (reading s₀ s₁) (reading (-s₀) (-s₁)) := by
  rintro ⟨hpos, hneg⟩
  have h₁ : 0 < s₁ - s₀ := of_decide_eq_true hpos
  have h₂ : 0 < -s₁ - -s₀ := of_decide_eq_true hneg
  linarith

theorem get?_neg (sym : List ℚ) (i : ℤ) : get? (sym.map (- ·)) i = (get? sym i).map (- ·) := by
  rw [get?, get?, List.length_map]
  split_ifs
  · rfl
  · rw [List.getElem?_map]

theorem logical_neg (sym : List ℚ) (a : ℤ) (count : ℕ) :
    (∃ v w, logical sym a count = .ok v ∧ logical (sym.map (- ·)) a count = .ok w ∧
      List.Forall₂ Opposed v w) ∨
    ∃ e, logical sym a count = .error e ∧ logical (sym.map (- ·)) a count = .error e := by
  induction count generalizing a with
  | zero => exact Or.inl ⟨[], [], rfl, rfl, .nil⟩
  | succ count ih =>
      rw [logical, logical, List.length_map]
      split_ifs with hend
      · exact Or.inl ⟨[], [], rfl, rfl, .nil⟩
      · simp only [symbol, get?_neg, List.length_map]
        cases hs₀ : get? sym a with
        | none => exact Or.inr ⟨_, rfl, rfl⟩
        | some s₀ =>
            cases hs₁ : get? sym (a + 1) with
            | none => exact Or.inr ⟨_, rfl, rfl⟩
            | some s₁ =>
                obtain ⟨v, w, hv, hw, hvw⟩ | ⟨e, hv, hw⟩ := ih (a + 2)
                · rw [hv, hw]
                  exact Or.inl ⟨_, _, rfl, rfl, .cons (opposed_neg s₀ s₁) hvw⟩
                · rw [hv, hw]
                  exact Or.inr ⟨e, rfl, rfl⟩

/-- As far as both polarities are read, they are opposed. -/
theorem logicalFrames_neg {sym : List ℚ} {base : ℤ} {n m : ℕ} {all neg : List Reading}
    (hall : logicalFrames sym base n = .ok all)
    (hneg : logicalFrames (sym.map (- ·)) base m = .ok neg) (i : ℕ) (x y : Reading)
    (hx : all[i]? = some x) (hy : neg[i]? = some y) : Opposed x y := by
  induction n generalizing base m all neg i with
  | zero =>
      obtain rfl := Except.ok.inj hall
      simp at hx
  | succ n ih =>
      cases m with
      | zero =>
          obtain rfl := Except.ok.inj hneg
          simp at hy
      | succ m =>
          rw [logicalFrames] at hall hneg
          obtain ⟨v, w, hv, hw, hvw⟩ | ⟨e, hv, -⟩ := logical_neg sym (base + 2) frameLogicalBits
          · have hlen := hvw.length_eq
            rw [hv] at hall
            rw [hw] at hneg
            by_cases hshort : v.length < frameLogicalBits
            · obtain rfl : [] = all := by
                simpa [hshort, bind, Except.bind, pure, Except.pure] using hall
              simp at hx
            · have hshort' : ¬ w.length < frameLogicalBits := by omega
              cases hrest : logicalFrames sym (base + frameBits) n with
              | error e => simp [hshort, hrest, bind, Except.bind] at hall
              | ok rest =>
                  cases hrest' : logicalFrames (sym.map (- ·)) (base + frameBits) m with
                  | error e => simp [hshort', hrest', bind, Except.bind] at hneg
                  | ok rest' =>
                      obtain rfl : v ++ rest = all := by
                        simpa [hshort, hrest, bind, Except.bind, pure, Except.pure] using hall
                      obtain rfl : w ++ rest' = neg := by
                        simpa [hshort', hrest', bind, Except.bind, pure, Except.pure] using hneg
                      by_cases hi : i < v.length
                      · have hi' : i < w.length := by omega
                        rw [List.getElem?_append_left hi, List.getElem?_eq_getElem hi] at hx
                        rw [List.getElem?_append_left hi', List.getElem?_eq_getElem hi'] at hy
                        have hxy := hvw.get hi hi'
                        rwa [List.get_eq_getElem, List.get_eq_getElem, Option.some.inj hx,
                          Option.some.inj hy] at hxy
                      · rw [List.getElem?_append_right (by omega)] at hx
                        rw [List.getElem?_append_right (by omega), ← hlen] at hy
                        exact ih hrest hrest' (i - v.length) hx hy
          · rw [hv] at hall
            cases hall

theorem readPacket_neg {sym : List ℚ} {pos : ℤ} {e e' : Bool} {all neg : List Reading}
    (hall : readPacket sym pos = .ok (some (e, all)))
    (hneg : readPacket (sym.map (- ·)) pos = .ok (some (e', neg))) (i : ℕ) :
    ¬ ((all.map Reading.value).getD i false = true ∧ (neg.map Reading.value).getD i false = true) := by
  obtain ⟨-, -, -, -, hframes⟩ := readPacket_ok hall
  obtain ⟨-, -, -, -, hframes'⟩ := readPacket_ok hneg
  rw [List.getD_eq_getElem?_getD, List.getD_eq_getElem?_getD, List.getElem?_map, List.getElem?_map]
  cases hx : all[i]? with
  | none => simp
  | some x =>
      cases hy : neg[i]? with
      | none => simp
      | some y => exact logicalFrames_neg hframes hframes' i x y hx hy

theorem testBit_counter (values : List Bool) {nframes f b : ℕ} (hf : f < nframes)
    (hb : b < frameIndexBits) :
    ((countersFrom values nframes).getD f 0).testBit b =
      values.getD (f * frameLogicalBits + b) false := by
  have hget : (countersFrom values nframes).getD f 0 =
      ofLsbBits ((values.drop (f * frameLogicalBits)).take frameIndexBits) := by
    simp [countersFrom, List.getD_eq_getElem?_getD, hf]
  rw [hget, testBit_ofLsbBits, List.getD_eq_getElem?_getD, List.getD_eq_getElem?_getD,
    List.getElem?_take, if_pos hb, List.getElem?_drop]

theorem expected_bits (extended : Bool) :
    ((expectedIndexes extended).getD 0 0).testBit 0 = true ∧
      ((expectedIndexes extended).getD 1 0).testBit 1 = true ∧
      ((expectedIndexes extended).getD 2 0).testBit 3 = true := by
  revert extended
  decide

theorem right_of_three {values : List Bool} {nframes : ℕ} {extended : Bool} (hlen : 3 ≤ nframes)
    (h : indexErrors values nframes extended ≤ 1) (i j : ℕ) (hi : i < 3) (hj : j < 3)
    (hij : i ≠ j) :
    (countersFrom values nframes).getD i 0 = (expectedIndexes extended).getD i 0 ∨
      (countersFrom values nframes).getD j 0 = (expectedIndexes extended).getD j 0 := by
  rw [indexErrors] at h
  obtain ⟨e₀, e₁, e₂, es, he⟩ : ∃ e₀ e₁ e₂ es, expectedIndexes extended = e₀ :: e₁ :: e₂ :: es := by
    cases extended
    · exact ⟨_, _, _, _, rfl⟩
    · exact ⟨_, _, _, _, rfl⟩
  obtain ⟨c₀, c₁, c₂, cs, hc⟩ : ∃ c₀ c₁ c₂ cs, countersFrom values nframes =
      c₀ :: c₁ :: c₂ :: cs := by
    have hsize := length_countersFrom values nframes
    obtain ⟨c₀, l, hl⟩ := List.exists_cons_of_length_pos
      (show 0 < (countersFrom values nframes).length by omega)
    rw [hl, List.length_cons] at hsize
    obtain ⟨c₁, l, rfl⟩ := List.exists_cons_of_length_pos (show 0 < l.length by omega)
    rw [List.length_cons] at hsize
    obtain ⟨c₂, cs, rfl⟩ := List.exists_cons_of_length_pos (show 0 < l.length by omega)
    exact ⟨c₀, c₁, c₂, cs, hl⟩
  rw [he, hc] at h ⊢
  simp only [List.zip_cons_cons, List.countP_cons, bne_iff_ne, ne_eq] at h
  by_contra hboth
  rw [not_or] at hboth
  obtain ⟨hni, hnj⟩ := hboth
  interval_cases i <;> interval_cases j <;>
    simp only [List.getD_cons_zero, List.getD_cons_succ, ne_eq, not_true_eq_false] at hni hnj hij <;>
    simp only [hni, hnj, not_false_eq_true, if_true] at h <;> omega

theorem two_of_three_meet {a b c x y z : Prop} (hab : a ∨ b) (hac : a ∨ c) (hbc : b ∨ c)
    (hxy : x ∨ y) (hxz : x ∨ z) (hyz : y ∨ z) : (a ∧ x) ∨ (b ∧ y) ∨ (c ∧ z) := by
  rcases hab with ha | hb
  · rcases hxy with hx | hy
    · exact Or.inl ⟨ha, hx⟩
    · rcases hxz with hx | hz
      · exact Or.inl ⟨ha, hx⟩
      · rcases hbc with hb | hc
        · exact Or.inr (Or.inl ⟨hb, hy⟩)
        · exact Or.inr (Or.inr ⟨hc, hz⟩)
  · rcases hyz with hy | hz
    · exact Or.inr (Or.inl ⟨hb, hy⟩)
    · rcases hac with ha | hc
      · rcases hxy with hx | hy
        · exact Or.inl ⟨ha, hx⟩
        · exact Or.inr (Or.inl ⟨hb, hy⟩)
      · exact Or.inr (Or.inr ⟨hc, hz⟩)

/-- With one wrong counter allowed, a burst and its inverse are not both packets. -/
theorem one_polarity {bits bits' : Bits} {sym : List ℚ} {pos : ℤ} {ts : Option Time}
    {o : RecoverOptions} {r r' : Recovered} (hmax : o.max_index_errors ≤ 1)
    (h : recoverFrom bits sym pos ts o = .ok (some r))
    (h' : recoverFrom bits' (sym.map (- ·)) pos ts o = .ok (some r')) : False := by
  obtain ⟨e, all, ha⟩ := answer_of_recoverFrom h
  obtain ⟨e', neg, ha'⟩ := answer_of_recoverFrom h'
  have hopposed := readPacket_neg ha.read ha'.read
  have hlong : 3 ≤ r.packet.data.length := by
    have hlen := (crcOk_spec ha.crc).1
    split_ifs at hlen <;> simp only [extCrcIndex, stdCrcIndex] at hlen <;> omega
  have hlong' : 3 ≤ r'.packet.data.length := by
    have hlen := (crcOk_spec ha'.crc).1
    split_ifs at hlen <;> simp only [extCrcIndex, stdCrcIndex] at hlen <;> omega
  have hone : indexErrors (all.map Reading.value) r.packet.data.length e ≤ 1 := by
    have := ha.limit
    omega
  have hone' : indexErrors (neg.map Reading.value) r'.packet.data.length e' ≤ 1 := by
    have := ha'.limit
    omega
  obtain ⟨b₀, b₁, b₂⟩ := expected_bits e
  obtain ⟨b₀', b₁', b₂'⟩ := expected_bits e'
  -- A counter that is right in both polarities would have a bit set in both.
  have hclash : ∀ f b, f < 3 → b < frameIndexBits →
      ((expectedIndexes e).getD f 0).testBit b = true →
      ((expectedIndexes e').getD f 0).testBit b = true →
      ¬ ((countersFrom (all.map Reading.value) r.packet.data.length).getD f 0 =
          (expectedIndexes e).getD f 0 ∧
        (countersFrom (neg.map Reading.value) r'.packet.data.length).getD f 0 =
          (expectedIndexes e').getD f 0) := by
    rintro f b hf hb hbit hbit' ⟨hc, hc'⟩
    apply hopposed (f * frameLogicalBits + b)
    rw [← testBit_counter _ (by omega : f < r.packet.data.length) hb,
      ← testBit_counter _ (by omega : f < r'.packet.data.length) hb, hc, hc']
    exact ⟨hbit, hbit'⟩
  have h₀ := hclash 0 0 (by omega) (by decide) b₀ b₀'
  have h₁ := hclash 1 1 (by omega) (by decide) b₁ b₁'
  have h₂ := hclash 2 3 (by omega) (by decide) b₂ b₂'
  rcases two_of_three_meet
    (right_of_three hlong hone 0 1 (by omega) (by omega) (by omega))
    (right_of_three hlong hone 0 2 (by omega) (by omega) (by omega))
    (right_of_three hlong hone 1 2 (by omega) (by omega) (by omega))
    (right_of_three hlong' hone' 0 1 (by omega) (by omega) (by omega))
    (right_of_three hlong' hone' 0 2 (by omega) (by omega) (by omega))
    (right_of_three hlong' hone' 1 2 (by omega) (by omega) (by omega)) with hm | hm | hm
  · exact h₀ hm
  · exact h₁ hm
  · exact h₂ hm

theorem symbol_ok (sym : List ℚ) (i : ℤ) (hlow : -(sym.length : ℤ) ≤ i) (hhigh : i < sym.length) :
    ∃ s, symbol sym i = .ok s := by
  have hpos : ¬ position sym.length i < 0 := by
    rw [position]
    split_ifs <;> omega
  have hlt : (position sym.length i).toNat < sym.length := by
    rw [position] at hpos ⊢
    split_ifs at hpos ⊢ <;> omega
  rw [symbol, get?, if_neg hpos, List.getElem?_eq_getElem hlt]
  exact ⟨_, rfl⟩

theorem logical_ok {sym : List ℚ} {a : ℤ} (hlow : -(sym.length : ℤ) ≤ a) (count : ℕ) :
    ∃ v, logical sym a count = .ok v := by
  induction count generalizing a with
  | zero => exact ⟨[], rfl⟩
  | succ count ih =>
      rw [logical]
      split_ifs with hend
      · exact ⟨[], rfl⟩
      · obtain ⟨s₀, h₀⟩ := symbol_ok sym a hlow (by omega)
        obtain ⟨s₁, h₁⟩ := symbol_ok sym (a + 1) (by omega) (by omega)
        obtain ⟨rest, hrest⟩ := ih (a := a + 2) (by omega)
        rw [h₀, h₁, hrest]
        exact ⟨_, rfl⟩

theorem logicalFrames_ok {sym : List ℚ} {base : ℤ} (hlow : -(sym.length : ℤ) ≤ base + 2)
    (nframes : ℕ) : ∃ all, logicalFrames sym base nframes = .ok all := by
  induction nframes generalizing base with
  | zero => exact ⟨[], rfl⟩
  | succ nframes ih =>
      obtain ⟨v, hv⟩ := logical_ok hlow frameLogicalBits
      have hnext : -(sym.length : ℤ) ≤ base + frameBits + 2 := by
        simp only [frameBits]
        omega
      obtain ⟨rest, hrest⟩ := ih hnext
      rw [logicalFrames, hv, hrest]
      simp only [bind, Except.bind, pure, Except.pure]
      split_ifs
      · exact ⟨_, rfl⟩
      · exact ⟨_, rfl⟩

theorem low_of_logical {sym : List ℚ} {a : ℤ} {count : ℕ} {v : List Reading}
    (h : logical sym a count = .ok v) (hne : v ≠ []) : -(sym.length : ℤ) ≤ a := by
  cases count with
  | zero => exact absurd (Except.ok.inj h).symm hne
  | succ count =>
      rw [logical] at h
      split_ifs at h with hend
      · exact absurd (Except.ok.inj h).symm hne
      · by_contra hlow
        have hout : get? sym a = none := by
          rw [get?, if_pos]
          rw [position]
          split_ifs <;> omega
        rw [symbol, hout] at h
        cases h

theorem recoverFrom_error {bits : Bits} {sym : List ℚ} {pos : ℤ} {ts : Option Time}
    {o : RecoverOptions} {e : IndexError} :
    recoverFrom bits sym pos ts o = .error e ↔
      logical sym (pos + markerOffset + 2) frameLogicalBits = .error e := by
  rw [recoverFrom, readPacket]
  cases hhead : logical sym (pos + markerOffset + 2) frameLogicalBits with
  | error e' => simp [bind, Except.bind]
  | ok head =>
      by_cases hshort : head.length < frameLogicalBits
      · simp [hshort, bind, Except.bind, pure, Except.pure]
      · have hne : head ≠ [] := by
          rintro rfl
          exact hshort (by decide)
        obtain ⟨all, hall⟩ := logicalFrames_ok (low_of_logical hhead hne)
          (if isExtended (firstByte (bytesFrom (head.map Reading.value) 1)) then extLen else stdLen)
        simp [hshort, hall, bind, Except.bind, pure, Except.pure]

theorem recoverFrom_error_neg {bits bits' : Bits} {sym : List ℚ} {pos : ℤ} {ts : Option Time}
    {o : RecoverOptions} {e : IndexError} :
    recoverFrom bits' (sym.map (- ·)) pos ts o = .error e ↔
      recoverFrom bits sym pos ts o = .error e := by
  rw [recoverFrom_error, recoverFrom_error]
  obtain ⟨v, w, hv, hw, -⟩ | ⟨f, hv, hw⟩ := logical_neg sym (pos + markerOffset + 2)
    frameLogicalBits
  · rw [hv, hw]
    simp
  · rw [hv, hw]

def summary (r : Recovered) : List Byte × ℕ := (r.packet.data, r.corrected)

theorem recoverPackets_absent {line : Bits} {soft : Option (List ℚ)} {ts : Option Time} {pos : ℤ}
    {o : RecoverOptions} (h : ¬ HasHeader line) :
    recoverPackets line soft ts (some pos) o =
      (recoverAt line soft pos ts o).map Option.toList := by
  have hheaders := findHeaders_absent h
  have hsoft : alignedSoft line soft = softFor line soft := by
    rw [alignedSoft, hheaders]
    simp
  rw [recoverPackets, offsets, hheaders, hsoft, recoverAt]
  simp only [List.map_nil, List.not_mem_nil, if_false, List.mapM_cons, List.mapM_nil]
  cases recoverFrom line (softFor line soft) pos ts o with
  | error e => rfl
  | ok x => cases x <;> rfl

theorem recoverPackets_absent_none {line : Bits} {soft : Option (List ℚ)} {ts : Option Time}
    {o : RecoverOptions} (h : ¬ HasHeader line) :
    recoverPackets line soft ts none o = .ok [] := by
  rw [recoverPackets_none, findHeaders_absent h]
  rfl

theorem recoverAt_error_neg {line : Bits} {v : List ℚ} {pos : ℤ} {ts : Option Time}
    {o : RecoverOptions} {e : IndexError} (hlen : line.length ≤ v.length) :
    recoverAt (invertBits line) (some (v.map (- ·))) pos ts o = .error e ↔
      recoverAt line (some v) pos ts o = .error e := by
  rw [recoverAt, recoverAt, softFor_invertBits hlen]
  exact recoverFrom_error_neg

/-- No offset yields a packet in both polarities. -/
theorem recoverAt_one_polarity {line : Bits} {v : List ℚ} {pos : ℤ} {ts : Option Time}
    {o : RecoverOptions} {r r' : Recovered} (hlen : line.length ≤ v.length)
    (hmax : o.max_index_errors ≤ 1) (h : recoverAt line (some v) pos ts o = .ok (some r)) :
    recoverAt (invertBits line) (some (v.map (- ·))) pos ts o ≠ .ok (some r') := by
  intro h'
  rw [recoverAt] at h h'
  rw [softFor_invertBits hlen] at h'
  exact one_polarity hmax h h'

/-- The polarity of a burst does not matter to the hard decoder. To recovery it does not
matter exactly if the burst has an exact header, or no offset is given, or neither polarity
holds a packet at that offset. -/
theorem polarity_iff (line : Bits) (v : List ℚ) (ts : Option Time) (minBytes : ℕ)
    (header_index : Option ℤ) (hlen : line.length ≤ v.length) :
    parseBits (invertBits line) ts minBytes = parseBits line ts minBytes ∧
    ((recoverPackets (invertBits line) (some (v.map (- ·))) ts header_index {}).map
        (List.map summary) =
      (recoverPackets line (some v) ts header_index {}).map (List.map summary) ↔
      header_index = none ∨ HasHeader line ∨ ∀ pos, header_index = some pos → ∀ r,
        recoverAt line (some v) pos ts {} ≠ .ok (some r) ∧
        recoverAt (invertBits line) (some (v.map (- ·))) pos ts {} ≠ .ok (some r)) := by
  refine ⟨parseBits_invertBits line ts minBytes, ?_⟩
  by_cases hheader : HasHeader line
  · apply iff_of_true _ (Or.inr (Or.inl hheader))
    have hoffsets : offsets (invertBits line) header_index = offsets line header_index := by
      unfold offsets
      rw [findHeaders_invertBits hheader]
    rw [recoverPackets, recoverPackets, hoffsets, findHeaders_invertBits hheader,
      alignedSoft_invertBits hlen hheader]
  · have hheader' : ¬ HasHeader (invertBits line) := by
      rw [hasHeader_invertBits]
      exact hheader
    cases header_index with
    | none =>
        apply iff_of_true _ (Or.inl rfl)
        rw [recoverPackets_absent_none hheader, recoverPackets_absent_none hheader']
    | some pos =>
        rw [recoverPackets_absent hheader, recoverPackets_absent hheader']
        cases h : recoverAt line (some v) pos ts {} with
        | error e => simp [h, (recoverAt_error_neg hlen).mpr h, Except.map, hheader]
        | ok x =>
            cases h' : recoverAt (invertBits line) (some (v.map (- ·))) pos ts {} with
            | error e => simp [(recoverAt_error_neg hlen).mp h'] at h
            | ok y =>
                cases x with
                | none => cases y <;> simp [h, h', Except.map, hheader]
                | some r =>
                    cases y with
                    | none =>
                        apply iff_of_false
                        · simp [Except.map]
                        · rintro (hno | hyes | hnone)
                          · cases hno
                          · exact hheader hyes
                          · exact (hnone pos rfl r).1 h
                    | some r' => exact absurd h' (recoverAt_one_polarity hlen (by decide) h)

/-- A standard packet whose start header has one wrong symbol. -/
def damagedHeader : Bits := flipAt cleanLine [0]

theorem softFor_damagedHeader :
    softFor damagedHeader (some (hardSoft damagedHeader)) = hardSoft damagedHeader := by
  rw [softFor]
  simp only [length_hardSoft, le_refl, if_true, List.take_of_length_le (length_hardSoft _).le]
  exact map_float32_hardSoft damagedHeader

theorem damagedHeader_run :
    ¬ HasHeader damagedHeader ∧
    (∃ r, recoverAt damagedHeader (some (hardSoft damagedHeader)) 0 none {} = .ok (some r)) ∧
    recoverAt (invertBits damagedHeader) (some ((hardSoft damagedHeader).map (- ·))) 0 none {} =
      .ok none := by
  have habsent : find startHeader damagedHeader 0 = none ∧
      find startHeaderInv damagedHeader 0 = none := by
    decide +kernel
  have hread : (recoverAtOffset damagedHeader (hardSoft damagedHeader) 0 none {}).isSome =
      true := by
    decide +kernel
  have hnone : recoverAtOffset (invertBits damagedHeader) ((hardSoft damagedHeader).map (- ·)) 0
      none {} = none := by
    decide +kernel
  refine ⟨?_, ?_, ?_⟩
  · rintro (h | h)
    · exact h habsent.1
    · exact h habsent.2
  · obtain ⟨r, hr⟩ := Option.isSome_iff_exists.mp hread
    exact ⟨r, by rw [recoverAt, softFor_damagedHeader, ← Nat.cast_zero, recoverFrom_natCast, hr]⟩
  · rw [recoverAt, softFor_invertBits (length_hardSoft _).ge, softFor_damagedHeader,
      ← Nat.cast_zero, recoverFrom_natCast, hnone]

theorem polarity_iff_damagedHeader :
    (recoverPackets (invertBits damagedHeader) (some ((hardSoft damagedHeader).map (- ·))) none
      (some 0) {}).map (List.map summary) ≠
      (recoverPackets damagedHeader (some (hardSoft damagedHeader)) none (some 0) {}).map
        (List.map summary) := by
  intro hsame
  obtain ⟨habsent, ⟨r, hr⟩, -⟩ := damagedHeader_run
  rcases (polarity_iff damagedHeader (hardSoft damagedHeader) none 4 (some 0)
    (length_hardSoft damagedHeader).ge).2.mp hsame with hno | hyes | hnone
  · cases hno
  · exact habsent hyes
  · exact (hnone 0 rfl r).1 hr

/-- The offset of the correlator finds the packet in one polarity and nothing in the other. -/
theorem recoverPackets_one_polarity :
    (∃ r, recoverPackets damagedHeader (some (hardSoft damagedHeader)) none (some 0) {} =
      .ok [r]) ∧
    recoverPackets (invertBits damagedHeader) (some ((hardSoft damagedHeader).map (- ·))) none
      (some 0) {} = .ok [] := by
  obtain ⟨habsent, ⟨r, hr⟩, hnone⟩ := damagedHeader_run
  have habsent' : ¬ HasHeader (invertBits damagedHeader) := by
    rw [hasHeader_invertBits]
    exact habsent
  constructor
  · exact ⟨r, by rw [recoverPackets_absent habsent, hr]; rfl⟩
  · rw [recoverPackets_absent habsent', hnone]
    rfl

end Recover

end InsteonRf
