import InsteonRf.CombineOwn
import InsteonRf.MqttTransport

/-!
# The board's gate

A board drops a capture whose first frames are not Manchester code, but for a few wrong
symbols. It counts from behind the sync word and stops at the end of the buffer; the host
counts from the start header on. Check `m` of the board looks at the bits `1 + 2 * m` and
`2 + 2 * m` of the buffer, which are those of frame `(m + 6) / 14` on the host.
-/
namespace InsteonRf.Board
open LsbBits StringSearch Mqtt

def bit (buf : List Byte) (i : ℕ) : Bool := (buf.getD (i / 8) 0).getLsbD (7 - i % 8)

/-- Count a violation, in eight bits; `none` where the gate returns at once. -/
def note (errors bad : ℕ) (violated : Bool) : Option ℕ :=
  if violated then
    if errors < (bad + 1) % 256 then none else some ((bad + 1) % 256)
  else some bad

/-- The pairs from `start` on; the symbols of each must differ. -/
def checkPairs (buf : List Byte) (errors start count bad : ℕ) : Option ℕ :=
  (List.range count).foldlM
    (fun bad j => note errors bad (bit buf (start + 2 * j) == bit buf (start + 2 * j + 1))) bad

/-- Frames behind the first, from frame `k` on: the marker, whose symbols must be equal, and
the pairs. A frame that the buffer does not hold ends the loop. -/
def checkFrames (buf : List Byte) (errors nbits : ℕ) : ℕ → ℕ → ℕ → Option ℕ
  | 0, _, bad => some bad
  | left + 1, k, bad =>
      let base := 17 + k * 28
      if nbits < base + 28 then some bad
      else do
        let bad ← note errors bad (bit buf base != bit buf (base + 1))
        let bad ← checkPairs buf errors (base + 2) 13 bad
        checkFrames buf errors nbits left (k + 1) bad

def manchesterGateOk (manchester_gate manchester_gate_errors : ℕ) (buf : List Byte) : Bool :=
  let nbits := buf.length * 8
  if nbits < 17 then false
  else
    ((checkPairs buf manchester_gate_errors 1 8 0).bind
      (checkFrames buf manchester_gate_errors nbits (manchester_gate - 1) 0)).isSome

def violation (buf : List Byte) (m : ℕ) : Bool :=
  if (m + 6) % 14 = 0 then bit buf (1 + 2 * m) != bit buf (2 + 2 * m)
  else bit buf (1 + 2 * m) == bit buf (2 + 2 * m)

/-- How many checks there are: those of the first byte, and fourteen a frame. -/
def checks (manchester_gate len : ℕ) : ℕ := 8 + 14 * min (manchester_gate - 1) ((len * 8 - 17) / 28)

theorem foldlM_note {errors : ℕ} (herrors : errors < 255) (l : List Bool) {bad : ℕ}
    (hbad : bad ≤ errors) :
    l.foldlM (note errors) bad =
      if bad + l.count true ≤ errors then some (bad + l.count true) else none := by
  induction l generalizing bad with
  | nil => simp [hbad]
  | cons v l ih =>
      rw [List.foldlM_cons]
      cases v with
      | false => simpa [note] using ih hbad
      | true =>
          have hmod : (bad + 1) % 256 = bad + 1 := Nat.mod_eq_of_lt (by omega)
          rw [note, if_pos rfl, hmod, List.count_cons_self]
          split_ifs with hover hfits hfits
          · omega
          · rfl
          · exact (ih (by omega)).trans (by rw [if_pos (by omega)]; congr 1; omega)
          · exact (ih (by omega)).trans (by rw [if_neg (by omega)])

theorem checkPairs_eq (buf : List Byte) (errors m count bad : ℕ)
    (hpairs : ∀ j < count, (m + j + 6) % 14 ≠ 0) :
    checkPairs buf errors (1 + 2 * m) count bad =
      ((List.range' m count).map (violation buf)).foldlM (note errors) bad := by
  have hmap : (List.range' m count).map (violation buf) = (List.range count).map (fun j =>
      bit buf (1 + 2 * m + 2 * j) == bit buf (1 + 2 * m + 2 * j + 1)) := by
    rw [List.range'_eq_map_range, List.map_map]
    apply List.map_congr_left
    intro j hj
    have hfirst : 1 + 2 * (m + j) = 1 + 2 * m + 2 * j := by omega
    have hsecond : 2 + 2 * (m + j) = 1 + 2 * m + 2 * j + 1 := by omega
    rw [Function.comp_apply, violation, if_neg (hpairs j (List.mem_range.mp hj)), hfirst, hsecond]
  rw [hmap, List.foldlM_map]
  rfl

theorem checkFrames_eq (buf : List Byte) (errors nbits left k bad : ℕ) :
    checkFrames buf errors nbits left k bad =
      ((List.range' (8 + 14 * k) (14 * min left ((nbits - 17) / 28 - k))).map
        (violation buf)).foldlM (note errors) bad := by
  induction left generalizing k bad with
  | zero => simp [checkFrames]
  | succ left ih =>
      rw [checkFrames]
      split_ifs with hend
      · have hnone : (nbits - 17) / 28 - k = 0 := by omega
        rw [hnone]
        rfl
      · have hcount : 14 * min (left + 1) ((nbits - 17) / 28 - k) =
            1 + 13 + 14 * min left ((nbits - 17) / 28 - (k + 1)) := by omega
        have hmarker : violation buf (8 + 14 * k) =
            (bit buf (17 + k * 28) != bit buf (17 + k * 28 + 1)) := by
          have hfirst : 1 + 2 * (8 + 14 * k) = 17 + k * 28 := by omega
          have hsecond : 2 + 2 * (8 + 14 * k) = 17 + k * 28 + 1 := by omega
          rw [violation, if_pos (by omega), hfirst, hsecond]
        have hstart : 17 + k * 28 + 2 = 1 + 2 * (8 + 14 * k + 1) := by omega
        have hnext : 8 + 14 * k + 1 + 13 = 8 + 14 * (k + 1) := by omega
        rw [hcount, Nat.add_assoc 1 13, Nat.add_comm 1, List.range'_succ, List.map_cons,
          List.foldlM_cons, hmarker]
        congr 1
        funext bad'
        rw [hstart, checkPairs_eq buf errors (8 + 14 * k + 1) 13 bad' (by omega),
          ← List.range'_append_1, List.map_append, List.foldlM_append, hnext]
        congr 1
        funext bad''
        exact ih (k + 1) bad''

/-- The gate accepts a buffer that holds the first byte if no more checks fail than it
tolerates. -/
theorem manchesterGateOk_iff {manchester_gate manchester_gate_errors : ℕ}
    (herrors : manchester_gate_errors < 255) (buf : List Byte) :
    manchesterGateOk manchester_gate manchester_gate_errors buf = true ↔
      17 ≤ buf.length * 8 ∧ ((List.range (checks manchester_gate buf.length)).map
        (violation buf)).count true ≤ manchester_gate_errors := by
  have hchecks : (checkPairs buf manchester_gate_errors 1 8 0).bind
      (checkFrames buf manchester_gate_errors (buf.length * 8) (manchester_gate - 1) 0) =
        ((List.range (checks manchester_gate buf.length)).map (violation buf)).foldlM
          (note manchester_gate_errors) 0 := by
    have hfirst := checkPairs_eq buf manchester_gate_errors 0 8 0 (by decide)
    rw [Nat.mul_zero, Nat.add_zero] at hfirst
    rw [hfirst, checks, List.range_eq_range', ← List.range'_append_1, List.map_append,
      List.foldlM_append]
    congr 1
    funext bad
    rw [checkFrames_eq]
    rfl
  rw [manchesterGateOk]
  simp only [hchecks, foldlM_note herrors _ (Nat.zero_le _), Nat.zero_add]
  split_ifs with hshort hfits
  · simp; omega
  · simp; omega
  · simp; omega

theorem bit_eq (buf : List Byte) (i : ℕ) : bit buf i = (bitsFromBytes buf).getD i false := by
  induction buf generalizing i with
  | nil => simp [bit, bitsFromBytes]
  | cons b buf ih =>
      have hcons : bitsFromBytes (b :: buf) = msbBits 8 b.toNat ++ bitsFromBytes buf := rfl
      have hlen : (msbBits 8 b.toNat).length = 8 := length_msbBits 8 _
      rw [hcons]
      by_cases hi : i < 8
      · have hbyte : ∀ i < 8, b.getLsbD (7 - i) = (msbBits 8 b.toNat).getD i false := by
          intro i hi
          interval_cases i <;> rfl
        rw [List.getD_append _ _ _ _ (by omega), ← hbyte i hi, bit, Nat.div_eq_of_lt hi,
          Nat.mod_eq_of_lt hi, List.getD_cons_zero]
      · obtain ⟨j, rfl⟩ := Nat.exists_eq_add_of_le (Nat.not_lt.mp hi)
        have hdiv : (8 + j) / 8 = j / 8 + 1 := by omega
        have hmod : (8 + j) % 8 = j % 8 := by omega
        rw [List.getD_append_right _ _ _ _ (by omega), hlen, Nat.add_sub_cancel_left, ← ih, bit,
          bit, hdiv, hmod, List.getD_cons_succ]

def differs (a b : List Byte) (i : ℕ) : Bool := bit a i != bit b i

theorem bitDistance_eq_countP {a b : Bits} (h : a.length = b.length) :
    bitDistance a b =
      (List.range a.length).countP (fun i => a.getD i false != b.getD i false) := by
  have hzip : a.zip b = (List.range a.length).map (fun i => (a.getD i false, b.getD i false)) := by
    apply List.ext_getElem
    · simp [h]
    · intro i h₁ h₂
      have hi : i < a.length := by simpa using h₂
      simp [hi, h ▸ hi]
  rw [bitDistance, hzip, List.countP_map]
  rfl

theorem violation_le (a b : List Byte) (m : ℕ) :
    (violation b m).toNat ≤ (violation a m).toNat + (differs b a (1 + 2 * m)).toNat +
      (differs b a (2 + 2 * m)).toNat := by
  rw [violation, violation, differs, differs]
  generalize bit a (1 + 2 * m) = x
  generalize bit a (2 + 2 * m) = y
  generalize bit b (1 + 2 * m) = u
  generalize bit b (2 + 2 * m) = v
  split_ifs <;> cases x <;> cases y <;> cases u <;> cases v <;> decide

theorem countP_range_succ (p : ℕ → Bool) (n : ℕ) :
    (List.range (n + 1)).countP p = (List.range n).countP p + (p n).toNat := by
  rw [List.range_succ, List.countP_append, List.countP_singleton]
  cases p n <;> rfl

/-- No two checks look at the same bit, so each wrong bit fails one check at most. -/
theorem countP_violation_le (a b : List Byte) (M : ℕ) :
    (List.range M).countP (violation b) ≤
      (List.range M).countP (violation a) + (List.range (1 + 2 * M)).countP (differs b a) := by
  induction M with
  | zero => simp
  | succ M ih =>
      have hstep := violation_le a b M
      have htwo : 1 + 2 * (M + 1) = 1 + 2 * M + 1 + 1 := by omega
      have hsecond : 2 + 2 * M = 1 + 2 * M + 1 := by omega
      rw [htwo, countP_range_succ, countP_range_succ, countP_range_succ, countP_range_succ]
      rw [hsecond] at hstep
      omega

theorem violations_near {a b : List Byte} (hlen : b.length = a.length) {M : ℕ}
    (hM : 1 + 2 * M ≤ a.length * 8) :
    (List.range M).countP (violation b) ≤
      (List.range M).countP (violation a) +
        bitDistance (bitsFromBytes b) (bitsFromBytes a) := by
  have hsize : (bitsFromBytes b).length = (bitsFromBytes a).length := by
    rw [length_bitsFromBytes, length_bitsFromBytes, hlen]
  have hdistance : bitDistance (bitsFromBytes b) (bitsFromBytes a) =
      (List.range (8 * a.length)).countP (differs b a) := by
    rw [bitDistance_eq_countP hsize, length_bitsFromBytes, hlen]
    simp only [← bit_eq]
    rfl
  have hsublist : (List.range (1 + 2 * M)).countP (differs b a) ≤
      (List.range (8 * a.length)).countP (differs b a) :=
    (List.range_sublist.mpr (by omega)).countP_le
  have hcount := countP_violation_le a b M
  omega

theorem manchesterEncode_pair (ws : Bits) {j : ℕ} (hj : j < ws.length) :
    (manchesterEncode ws).getD (2 * j) false ≠ (manchesterEncode ws).getD (2 * j + 1) false := by
  induction ws generalizing j with
  | nil => simp at hj
  | cons w ws ih =>
      rw [manchesterEncode_cons]
      cases j with
      | zero => cases w <;> simp [encodeBit]
      | succ j =>
          have hj' : j < ws.length := by simpa using hj
          have hfirst : 2 * (j + 1) = 2 * j + 1 + 1 := by omega
          cases w
          · simpa [encodeBit, hfirst] using ih hj'
          · simpa [encodeBit, hfirst] using ih hj'

theorem frame_twos (idx : ℕ) (b : Byte) {r : ℕ} (hr : r < 14) :
    ((frame idx b).getD (2 * r) false = (frame idx b).getD (2 * r + 1) false ↔ r = 0) := by
  cases r with
  | zero => exact iff_of_true rfl rfl
  | succ j =>
      have hbody : ∀ i, (frame idx b).getD (i + 2) false =
          (manchesterEncode (lsbBits 5 idx ++ lsbBits 8 b.toNat)).getD i false := fun _ => rfl
      have hfirst : 2 * (j + 1) = 2 * j + 2 := by omega
      have hsecond : 2 * j + 2 + 1 = 2 * j + 1 + 2 := by omega
      rw [hfirst, hsecond, hbody, hbody]
      exact iff_of_false (manchesterEncode_pair _ (by simp; omega)) (by omega)

/-- Each of the frames the decoder counts reads well where it stands. -/
theorem readFrame_of_readFrames {fuel : ℕ} {l : Bits} {f : ℕ}
    (hf : f < (readFrames fuel l).length) :
    ∃ idx b, readFrame (l.drop (frameBits * f)) = some (idx, b) := by
  induction fuel generalizing l f with
  | zero => simp [readFrames] at hf
  | succ fuel ih =>
      rw [readFrames] at hf
      cases hread : readFrame l with
      | none => simp [hread] at hf
      | some found =>
          obtain ⟨idx, b⟩ := found
          simp only [hread] at hf
          cases f with
          | zero => exact ⟨idx, b, by rw [Nat.mul_zero, List.drop_zero, hread]⟩
          | succ f =>
              split_ifs at hf with hlast
              · simp at hf
              · have hdrop : frameBits * (f + 1) = frameBits + frameBits * f := by ring
                rw [hdrop, ← List.drop_drop]
                exact ih (by simpa using hf)

/-- In a frame the decoder counts, two symbols are equal only in the marker. -/
theorem twos_of_decodeFrames {bits : Bits} {start f r : ℕ}
    (hf : f < (decodeFrames bits start).1.length) (hr : r < 14) :
    (bits.getD (start + frameBits * f + 2 * r) false =
      bits.getD (start + frameBits * f + 2 * r + 1) false ↔ r = 0) := by
  rw [decodeFrames] at hf
  simp only [List.length_map] at hf
  obtain ⟨idx, b, hread⟩ := readFrame_of_readFrames hf
  obtain ⟨-, htake⟩ := frame_of_readFrame hread
  have hsymbol : ∀ i < frameBits, bits.getD (start + frameBits * f + i) false =
      (frame idx b).getD i false := by
    intro i hi
    rw [← htake]
    simp only [List.getD_eq_getElem?_getD, List.getElem?_take, if_pos hi, List.drop_drop,
      List.getElem?_drop]
  rw [Nat.add_assoc _ (2 * r) 1, hsymbol _ (by simp only [frameBits]; omega),
    hsymbol _ (by simp only [frameBits]; omega)]
  exact frame_twos idx b hr

theorem normalised_twos {bits : Bits} {i j : ℕ} (hi : i < bits.length) (hj : j < bits.length) :
    ((findHeaders bits).1.getD i false = (findHeaders bits).1.getD j false ↔
      bits.getD i false = bits.getD j false) := by
  rw [findHeaders]
  simp only
  split_ifs
  · simp [invertBits, hi, hj]
  · rfl

/-- A check that falls in a frame the host counts does not fail. -/
theorem violation_of_decodeFrames {buf : List Byte} {header : Bits} (hheader : IsHeader header)
    {m : ℕ} (hm : 2 + 2 * m < buf.length * 8)
    (hdecode : (m + 6) / 14 < (decodeFrames (findHeaders (header ++ bitsFromBytes buf)).1
      markerOffset).1.length) :
    violation buf m = false := by
  have htwos := twos_of_decodeFrames (r := (m + 6) % 14) hdecode (Nat.mod_lt _ (by decide))
  have hplace : markerOffset + frameBits * ((m + 6) / 14) + 2 * ((m + 6) % 14) =
      header.length + (1 + 2 * m) := by
    rw [length_header hheader, markerOffset, frameBits]
    omega
  have hlen : (header ++ bitsFromBytes buf).length = header.length + buf.length * 8 := by
    rw [List.length_append, length_bitsFromBytes, Nat.mul_comm]
  have hbit : ∀ i, (header ++ bitsFromBytes buf).getD (header.length + i) false = bit buf i := by
    intro i
    rw [List.getD_append_right _ _ _ _ (Nat.le_add_right _ _), Nat.add_sub_cancel_left, bit_eq]
  rw [hplace, normalised_twos (by omega) (by omega), Nat.add_assoc, hbit, hbit] at htwos
  have hnext : 1 + 2 * m + 1 = 2 + 2 * m := by omega
  rw [hnext] at htwos
  rw [violation]
  split_ifs with hmarker
  · simpa using htwos.mpr hmarker
  · simpa using mt htwos.mp hmarker

theorem length_of_decodeFrames {bits : Bits} {start f : ℕ}
    (hf : f < (decodeFrames bits start).1.length) :
    start + frameBits * f + frameBits ≤ bits.length := by
  rw [decodeFrames] at hf
  simp only [List.length_map] at hf
  obtain ⟨idx, b, hread⟩ := readFrame_of_readFrames hf
  obtain ⟨-, htake⟩ := frame_of_readFrame hread
  have hlen := congrArg List.length htake
  rw [length_frame, List.length_take, List.length_drop, List.length_drop] at hlen
  rw [frameBits] at hlen ⊢
  omega

theorem length_findHeaders (bits : Bits) : (findHeaders bits).1.length = bits.length := by
  rw [findHeaders]
  simp only
  split_ifs
  · exact List.length_map _
  · rfl

theorem nbits_of_decodeFrames {buf : List Byte} {header : Bits} (hheader : IsHeader header)
    (hdecode : 0 < (decodeFrames (findHeaders (header ++ bitsFromBytes buf)).1
      markerOffset).1.length) :
    17 ≤ buf.length * 8 := by
  have hlen := length_of_decodeFrames hdecode
  rw [length_findHeaders, List.length_append, length_header hheader, length_bitsFromBytes,
    markerOffset, frameBits] at hlen
  omega

/-- What the host decodes, the gate accepts, and with it whatever differs from it in no more
bits than the gate tolerates. -/
theorem manchesterGateOk_of_decodeFrames (buf : List Byte) {header : Bits}
    (hheader : IsHeader header) {manchester_gate manchester_gate_errors : ℕ}
    (hgate : 1 ≤ manchester_gate ∧ manchester_gate ≤ 13)
    (herrors : manchester_gate_errors ≤ 8)
    (hdecode : max manchester_gate 1 ≤ (decodeFrames (findHeaders
      (header ++ bitsFromBytes buf)).1 markerOffset).1.length) :
    manchesterGateOk manchester_gate manchester_gate_errors buf = true ∧
      ∀ damaged : List Byte, damaged.length = buf.length →
        bitDistance (bitsFromBytes damaged) (bitsFromBytes buf) ≤ manchester_gate_errors →
          manchesterGateOk manchester_gate manchester_gate_errors damaged = true := by
  have hfirst : 0 < (decodeFrames (findHeaders (header ++ bitsFromBytes buf)).1
      markerOffset).1.length := by
    omega
  have hnbits := nbits_of_decodeFrames hheader hfirst
  have hchecks : 1 + 2 * checks manchester_gate buf.length ≤ buf.length * 8 := by
    rw [checks]
    omega
  have hclean : (List.range (checks manchester_gate buf.length)).countP (violation buf) = 0 := by
    rw [List.countP_eq_zero]
    intro m hm
    rw [List.mem_range] at hm
    rw [violation_of_decodeFrames hheader (by omega)]
    · exact Bool.false_ne_true
    · rw [checks] at hm
      omega
  have hnear : ∀ damaged : List Byte, damaged.length = buf.length →
      bitDistance (bitsFromBytes damaged) (bitsFromBytes buf) ≤ manchester_gate_errors →
        manchesterGateOk manchester_gate manchester_gate_errors damaged = true := by
    intro damaged hlen hdistance
    have hcount := violations_near hlen hchecks
    rw [manchesterGateOk_iff (by omega), hlen, List.count, List.countP_map]
    refine ⟨hnbits, ?_⟩
    have hsame : ((· == true) ∘ violation damaged) = violation damaged := by
      funext m
      cases h : violation damaged m <;> simp [h]
    rw [hsame]
    omega
  exact ⟨hnear buf rfl (by rw [bitDistance_self]; exact Nat.zero_le _), hnear⟩

/-- What follows the start header of a packet in a board's buffer. -/
def packetBuffer : List Byte := bytesFromBits (Recover.cleanLine.drop 16)

theorem manchesterGateOk_packetBuffer : manchesterGateOk 4 2 packetBuffer = true := by
  have hdecode : max 4 1 ≤ (decodeFrames (findHeaders (startHeader ++
      bitsFromBytes packetBuffer)).1 markerOffset).1.length := by
    decide +kernel
  exact (manchesterGateOk_of_decodeFrames packetBuffer (Or.inl rfl) (by decide) (by decide)
    hdecode).1

end InsteonRf.Board
