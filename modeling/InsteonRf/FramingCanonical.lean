import InsteonRf.Framing

/-!
# Canonical framing

Packets whose counters are in order have exactly one framing: what was received
from the start header to the last frame is what the decoded bytes are sent as.
-/
namespace InsteonRf
open LsbBits StringSearch

/-- The frames a packet of this kind is sent as. -/
def canonicalFrames (extended : Bool) (data : List Byte) : Bits :=
  (List.zipWith frame (expectedIndexes extended) data).flatten

def fullLen (extended : Bool) : ℕ := if extended then extLen else stdLen

@[simp] theorem length_expectedIndexes (extended : Bool) :
    (expectedIndexes extended).length = fullLen extended := by
  cases extended <;> simp [expectedIndexes, fullLen, extLen, stdLen]

theorem expectedIndexes_lt {extended : Bool} {idx : ℕ} (h : idx ∈ expectedIndexes extended) :
    idx < 32 := by
  rcases List.mem_cons.mp h with rfl | hrest
  · omega
  · rw [List.mem_reverse, List.mem_range] at hrest
    split_ifs at hrest <;> omega

theorem length_flatten_frames (fs : List (ℕ × Byte)) :
    ((fs.map (fun f => frame f.1 f.2)).flatten).length = frameBits * fs.length := by
  induction fs with
  | nil => rfl
  | cons f fs ih =>
      rw [List.map_cons, List.flatten_cons, List.length_append, ih, length_frame, List.length_cons]
      ring

theorem flatten_frames_eq_zipWith (fs : List (ℕ × Byte)) :
    (fs.map (fun f => frame f.1 f.2)).flatten =
      (List.zipWith frame (fs.map Prod.fst) (fs.map Prod.snd)).flatten := by
  rw [List.zipWith_map, List.zipWith_self]

theorem zipWith_take_left {α β γ : Type*} (f : α → β → γ) (l : List α) (m : List β) :
    List.zipWith f (l.take m.length) m = List.zipWith f l m := by
  induction m generalizing l with
  | nil => simp
  | cons b m ih => cases l <;> simp [ih]

theorem length_canonicalFrames {extended : Bool} {data : List Byte}
    (h : data.length ≤ fullLen extended) :
    (canonicalFrames extended data).length = frameBits * data.length := by
  have hzip : List.zipWith frame (expectedIndexes extended) data =
      ((expectedIndexes extended).zip data).map (fun f => frame f.1 f.2) := by
    rw [List.zip, List.map_zipWith]
  rw [canonicalFrames, hzip, length_flatten_frames, List.length_zip, length_expectedIndexes,
    Nat.min_eq_right h]

theorem encodeFrames_countdown (extended : Bool) {i : ℕ} (hi : 1 < i) (n : ℕ) (data : List Byte)
    (h : data.length ≤ n + 1) :
    encodeFrames extended i n data =
      .ok (List.zipWith frame (List.range (n + 1)).reverse data).flatten := by
  induction data generalizing i n with
  | nil => simp [encodeFrames]
  | cons b rest ih =>
      have hi1 : i ≠ 1 := by omega
      have hnn : ¬ (n : ℤ) < 0 := by omega
      rw [encodeFrames]
      simp only [hi1, if_false, hnn, Int.toNat_natCast]
      have hrange : (List.range (n + 1)).reverse = n :: (List.range n).reverse := by
        rw [List.range_succ, List.reverse_append]
        rfl
      cases n with
      | zero =>
          have hrest : rest = [] := by
            rw [List.length_cons] at h
            exact List.length_eq_zero_iff.mp (by omega)
          subst hrest
          simp [encodeFrames, Except.map]
      | succ n =>
          have hpred : ((n + 1 : ℕ) : ℤ) - 1 = (n : ℤ) := by omega
          rw [hpred, ih (by omega) n (by rw [List.length_cons] at h; omega), hrange]
          simp [Except.map]

theorem encodeFrames_canonical {extended : Bool} {data : List Byte}
    (h : data.length ≤ fullLen extended) :
    encodeFrames extended 0 31 data = .ok (canonicalFrames extended data) := by
  match data, h with
  | [], _ => simp [encodeFrames, canonicalFrames]
  | [b], _ => simp [encodeFrames, canonicalFrames, expectedIndexes, Except.map]
  | b :: c :: rest, h =>
      cases extended with
      | false =>
          have hlen : rest.length ≤ 10 + 1 := by
            simp only [List.length_cons, fullLen, Bool.false_eq_true, if_false, stdLen] at h
            omega
          have hcount := encodeFrames_countdown false (i := 2) (by omega) 10 rest hlen
          have hexp : expectedIndexes false = 31 :: 11 :: (List.range 11).reverse := by decide
          simp [encodeFrames, canonicalFrames, hexp, Except.map] at hcount ⊢
          rw [hcount]
      | true =>
          have hlen : rest.length ≤ 29 + 1 := by
            simp only [List.length_cons, fullLen, if_true, extLen] at h
            omega
          have hcount := encodeFrames_countdown true (i := 2) (by omega) 29 rest hlen
          have hexp : expectedIndexes true = 31 :: 30 :: (List.range 30).reverse := by decide
          simp [encodeFrames, canonicalFrames, hexp, Except.map] at hcount ⊢
          rw [hcount]

/-- What a packet is sent as: preamble, frames, trailer and byte padding. -/
def onAir (p : Packet) : Bits :=
  padToByte (manchesterEncode preamble ++ canonicalFrames p.extended p.data ++
    manchesterEncode trailer)

theorem toBits_eq {p : Packet} (h : p.data.length ≤ fullLen p.extended) (invert : Bool) :
    p.toBits invert = .ok (if invert then invertBits (onAir p) else onAir p) := by
  rw [Packet.toBits, encodeFrames_canonical h]
  rfl

theorem readFrames_spec (fuel : ℕ) (l : Bits) :
    l.take (frameBits * (readFrames fuel l).length) =
      ((readFrames fuel l).map (fun f => frame f.1 f.2)).flatten := by
  induction fuel generalizing l with
  | zero => simp [readFrames]
  | succ fuel ih =>
      cases hr : readFrame l with
      | none => simp [readFrames, hr]
      | some f =>
          obtain ⟨idx, b⟩ := f
          obtain ⟨-, hframe⟩ := frame_of_readFrame hr
          by_cases h0 : idx = 0
          · simp [readFrames, hr, h0, hframe]
          · have hmul : frameBits * ((readFrames fuel (l.drop frameBits)).length + 1) =
                frameBits + frameBits * (readFrames fuel (l.drop frameBits)).length := by ring
            simp only [readFrames, hr, h0, if_false, List.length_cons, List.map_cons,
              List.flatten_cons]
            rw [hmul, List.take_add, hframe, ih]

theorem indexesOk_iff {data : List Byte} {idx : List ℕ} (h : indexesOk data idx = true) :
    idx = (expectedIndexes (isExtended (firstByte data))).take idx.length := by
  rw [indexesOk] at h
  split_ifs at h
  exact of_decide_eq_true h

/-- The fields of a parsed packet in terms of the frames read behind its header. -/
theorem parseAt_eq_some {bits : Bits} {ts : Option Time} {minBytes pos : ℕ} {p : Packet}
    (h : parseAt bits ts minBytes pos = some p) :
    p.data = (decodeFrames bits (pos + markerOffset)).1 ∧
      p.bits = (bits.drop pos).take (markerOffset + frameBits * p.data.length) ∧
      p.complete = decide ((decodeFrames bits (pos + markerOffset)).2.getLast? = some 0) ∧
      p.index_ok = some (indexesOk p.data (decodeFrames bits (pos + markerOffset)).2) := by
  rw [parseAt] at h
  simp only at h
  split_ifs at h with hd
  obtain rfl := Option.some.inj h
  exact ⟨rfl, rfl, rfl, rfl⟩

theorem header_take {bits : Bits} {pos : ℕ} (h : OccursAt startHeader bits pos) :
    (bits.drop pos).take markerOffset = (manchesterEncode preamble).drop 15 := by
  obtain ⟨rest, hrest⟩ := h
  rw [← hrest]
  rfl

theorem prefix_padToByte (bits : Bits) : bits <+: padToByte bits := by
  rw [padToByte]
  split_ifs
  · exact List.prefix_append _ _
  · exact List.prefix_rfl

theorem canonical_of_parseAt {bits : Bits} {ts : Option Time} {minBytes pos : ℕ} {p : Packet}
    (hpos : OccursAt startHeader bits pos) (h : parseAt bits ts minBytes pos = some p)
    (hok : p.index_ok = some true) :
    p.bits = (manchesterEncode preamble).drop 15 ++ canonicalFrames p.extended p.data ∧
      p.data.length ≤ fullLen p.extended := by
  obtain ⟨hdata, hbits, -, hindex⟩ := parseAt_eq_some h
  rw [hindex, Option.some.injEq] at hok
  have hidx := indexesOk_iff hok
  have hspec := readFrames_spec bits.length (bits.drop (pos + markerOffset))
  have hsnd : p.data = (readFrames bits.length (bits.drop (pos + markerOffset))).map Prod.snd := hdata
  have hlen : p.data.length = (readFrames bits.length (bits.drop (pos + markerOffset))).length := by
    rw [hsnd, List.length_map]
  have hfst : (readFrames bits.length (bits.drop (pos + markerOffset))).map Prod.fst =
      (expectedIndexes p.extended).take p.data.length := by
    have hcount : ((decodeFrames bits (pos + markerOffset)).2).length = p.data.length := by
      rw [hlen]
      simp [decodeFrames]
    rw [hcount] at hidx
    exact hidx
  constructor
  · rw [hbits, List.take_add, header_take hpos, List.drop_drop, hlen, hspec,
      flatten_frames_eq_zipWith, hfst, ← hsnd, zipWith_take_left, canonicalFrames]
  · have hle : ((expectedIndexes p.extended).take p.data.length).length = p.data.length := by
      rw [← hfst, List.length_map, ← hlen]
    rw [List.length_take, length_expectedIndexes] at hle
    omega

theorem occursAt_of_mem_findHeaders {line : Bits} {pos : ℕ} (h : pos ∈ (findHeaders line).2) :
    OccursAt startHeader (findHeaders line).1 pos :=
  occursAt_of_mem_findAll h

theorem mem_parseBits {line : Bits} {ts : Option Time} {minBytes : ℕ} {p : Packet} :
    p ∈ parseBits line ts minBytes ↔ ∃ pos ∈ (findHeaders line).2,
      parseAt (findHeaders line).1 ts minBytes pos = some p :=
  List.mem_filterMap

theorem findHeaders_sorted (line : Bits) : (findHeaders line).2.Pairwise (· < ·) :=
  (findAll_sorted (by decide) _ _).1

theorem slice_onAir {p : Packet} (h : p.data.length ≤ fullLen p.extended) :
    ((onAir p).drop 15).take (5 + frameBits * p.data.length) =
      (manchesterEncode preamble).drop 15 ++ canonicalFrames p.extended p.data := by
  obtain ⟨pad, hpad⟩ := prefix_padToByte
    (manchesterEncode preamble ++ canonicalFrames p.extended p.data ++ manchesterEncode trailer)
  have hdrop : (onAir p).drop 15 = (manchesterEncode preamble).drop 15 ++
      canonicalFrames p.extended p.data ++ (manchesterEncode trailer ++ pad) := by
    rw [onAir, ← hpad, List.append_assoc, List.append_assoc, List.drop_append_of_le_length (by decide),
      List.append_assoc]
  rw [hdrop]
  apply List.take_left'
  rw [List.length_append, length_canonicalFrames h]
  rfl

/-- Encoding undoes decoding on its image: for every packet parsed with verified
counters, its received symbols are the slice of its own framing from symbol 15 on. -/
theorem parseBits_canonical (line : Bits) (ts : Option Time) (minBytes : ℕ) (p : Packet)
    (hp : p ∈ parseBits line ts minBytes) (hok : p.index_ok = some true) :
    (∃ enc, p.toBits false = .ok enc ∧ p.bits = (enc.drop 15).take p.bits.length) ∧
      p.data.length ≤ (if p.extended then 32 else 13) := by
  obtain ⟨pos, hmem, hparse⟩ := List.mem_filterMap.mp hp
  obtain ⟨hbits, hlen⟩ := canonical_of_parseAt (occursAt_of_mem_findHeaders hmem) hparse hok
  refine ⟨⟨onAir p, toBits_eq hlen false, ?_⟩, hlen⟩
  have hsize : p.bits.length = 5 + frameBits * p.data.length := by
    rw [hbits, List.length_append, length_canonicalFrames hlen]
    rfl
  rw [hsize, slice_onAir hlen, hbits]

/-- Four bytes of a standard packet, in on-air polarity, behind stray symbols. -/
def noisyLine : Bits :=
  [true, false, false] ++ match (Packet.ofBytes 0x0F#8 [0x07#8, 0x93#8, 0x2B#8]).toBits true with
  | .ok bits => bits
  | .error _ => []

theorem parseBits_canonical_noisyLine :
    ∃ p ∈ parseBits noisyLine none 4, p.index_ok = some true ∧
      (∃ enc, p.toBits false = .ok enc ∧ p.bits = (enc.drop 15).take p.bits.length) ∧
      p.data.length ≤ (if p.extended then 32 else 13) := by
  obtain ⟨p, hp, hok⟩ : ∃ p ∈ parseBits noisyLine none 4, p.index_ok = some true := by
    decide +kernel
  exact ⟨p, hp, hok, parseBits_canonical noisyLine none 4 p hp hok⟩

end InsteonRf
