import InsteonRf.FramingRoundTrip
import InsteonRf.MqttTransport

/-!
# Blocks of the dongle

A CC1111 with the rfcat firmware sends a packet as one block of bytes, behind a preamble and a
sync word of its own. A receiving dongle looks for the start header and delivers the bytes behind
it as one block of a fixed size; the header is put back in front of it.
-/
namespace InsteonRf.Rfcat
open LsbBits StringSearch Mqtt

/-- Filled up to a byte boundary with the start of `01010101`. -/
def padCells (bits : Bits) : Bits :=
  if bits.length % 8 ≠ 0 then
    bits ++ ((List.replicate 4 [false, true]).flatten).take (8 - bits.length % 8)
  else bits

/-- `transmit_bits`: the blocks handed to the radio, one for each repetition. -/
def transmitBits (bits : Bits) (repeats : ℕ) (invert : Bool) : Except String (List (List Byte)) :=
  let data := bytesFromBits (padCells (if invert then invertBits bits else bits))
  if 255 < data.length then
    .error ("packet too long for one rfcat block: " ++ toString data.length ++ " bytes")
  else .ok (List.replicate repeats data)

def syncPreamble : Bits := msbBits 16 0x6666

/-- The four bytes `AA` that the radio puts in front of its sync word. -/
def chipPreamble : Bits := (List.replicate 16 [true, false]).flatten

/-- A radio set up by `configure_tx`: what it sends for a block. -/
def Airs (air : List Byte → Bits) : Prop :=
  ∀ data, air data = chipPreamble ++ (syncPreamble ++ bitsFromBytes data)

/-- A radio set up by `configure_rx`: it records the bytes behind the first start header, when they
fill a block. -/
def Records (record : ℕ → Bits → Option (List Byte)) : Prop :=
  ∀ blocksize bits n, find startHeaderInv bits 0 = some n →
    8 * blocksize ≤ (bits.drop (n + startHeaderInv.length)).length →
    record blocksize bits =
      some (bytesFromBits ((bits.drop (n + startHeaderInv.length)).take (8 * blocksize)))

/-- `receive`: a block with the time of its first bit, from the time it came off USB. -/
def receive (drate : ℚ) (ts : Time) (data : List Byte) : Time × List Byte :=
  (ts - data.length * 8 / drate, data)

def receiveBits (sync_header : Bool) (drate : ℚ) (ts : Time) (data : List Byte) : Time × Bits :=
  let (ts, data) := receive drate ts data
  let bits := bitsFromBytes data
  (ts, if sync_header then startHeaderInv ++ bits else bits)

theorem padCells_of_aligned {bits : Bits} (h : bits.length % 8 = 0) : padCells bits = bits :=
  if_neg (not_not.mpr h)

theorem bits_of_aligned {bits : Bits} (h : bits.length % 8 = 0) :
    bitsFromBytes (bytesFromBits bits) = bits := by
  rw [bitsFromBytes_bytesFromBits, padCount, h]
  exact List.append_nil bits

theorem length_padToByte (bits : Bits) : (padToByte bits).length % 8 = 0 := by
  rw [padToByte]
  split_ifs with hrem
  · have hlen : (manchesterEncode trailer).length = 96 := by decide
    rw [List.length_append, List.length_take, hlen]
    omega
  · omega

theorem length_onAir_le {p : Packet} (h : Fits p) : (onAir p).length ≤ 8 * 128 := by
  have hfits : p.data.length ≤ 32 := by
    have hfull : p.data.length ≤ fullLen p.extended := h
    have : fullLen p.extended ≤ 32 := by cases p.extended <;> decide
    omega
  have hplain : (manchesterEncode preamble ++ canonicalFrames p.extended p.data ++
      manchesterEncode trailer).length = 116 + 28 * p.data.length := by
    have hpre : (manchesterEncode preamble).length = 20 := by decide
    have htrail : (manchesterEncode trailer).length = 96 := by decide
    rw [List.length_append, List.length_append, length_canonicalFrames h, hpre, htrail, frameBits]
    omega
  rw [onAir, padToByte]
  split_ifs
  · rw [List.length_append, List.length_take, hplain]
    omega
  · omega

theorem transmitBits_packet {p : Packet} (h : Fits p) (repeats : ℕ) :
    transmitBits (invertBits (onAir p)) repeats false =
      .ok (List.replicate repeats (bytesFromBits (invertBits (onAir p)))) := by
  have haligned : (invertBits (onAir p)).length % 8 = 0 := by
    rw [length_invertBits, onAir]
    exact length_padToByte _
  have hshort : ¬ 255 < (bytesFromBits (invertBits (onAir p))).length := by
    rw [length_bytesFromBits, length_invertBits]
    have := length_onAir_le h
    omega
  simp only [transmitBits, Bool.false_eq_true, if_false, padCells_of_aligned haligned, if_neg hshort]

/-- The chip's preamble and sync word and the symbols of a packet up to the end of its start
header. -/
def lead : Bits :=
  chipPreamble ++ (syncPreamble ++ invertBits ((manchesterEncode preamble).take 15 ++ startHeader))

theorem take_onAir {p : Packet} (h : Fits p) :
    (onAir p).take 31 = (manchesterEncode preamble).take 15 ++ startHeader := by
  obtain ⟨tail, htail⟩ := header_onAir [] h
  rw [List.append_nil] at htail
  obtain ⟨pad, hpad⟩ := prefix_padToByte (manchesterEncode preamble ++
    canonicalFrames p.extended p.data ++ manchesterEncode trailer)
  have hfifteen : (onAir p).take 15 = (manchesterEncode preamble).take 15 := by
    rw [onAir, ← hpad]
    rfl
  have hadd : (31 : ℕ) = 15 + 16 := rfl
  rw [hadd, List.take_add, hfifteen, ← htail]
  rfl

theorem header_lead {rest : Bits} {i : ℕ} (hi : i ≤ 63) :
    OccursAt startHeaderInv (lead ++ rest) i ↔ i = 63 := by
  have hsize : startHeaderInv.length = 16 := rfl
  have hlen : lead.length = 79 := by decide
  rw [occursAt_append_left (by omega)]
  interval_cases i <;> decide

theorem air_packet {air : List Byte → Bits} (hair : Airs air) {p : Packet} (h : Fits p) :
    air (bytesFromBits (invertBits (onAir p))) = lead ++ invertBits ((onAir p).drop 31) := by
  have haligned : (invertBits (onAir p)).length % 8 = 0 := by
    rw [length_invertBits, onAir]
    exact length_padToByte _
  rw [hair, bits_of_aligned haligned, lead, ← take_onAir h]
  simp only [List.append_assoc, ← invertBits_append, List.take_append_drop]

theorem readFrame_trailer_take (l : Bits) (n : ℕ) :
    readFrame ((manchesterEncode trailer ++ l).take n) = none := by
  apply if_neg
  have htrailer : manchesterEncode trailer ++ l =
      true :: false :: ((manchesterEncode trailer).drop 2 ++ l) := rfl
  rw [htrailer]
  rcases n with _ | _ | n
  · exact fun hmark => absurd (congrArg List.length hmark) (by simp)
  · exact fun hmark => absurd (congrArg List.length hmark) (by simp)
  · rw [List.take_succ_cons, List.take_succ_cons]
    exact fun hmark => absurd (List.cons_eq_cons.mp (List.cons_eq_cons.mp hmark).2).1 (by decide)

/-- A packet reads back from its header, in a recording that reaches behind its last frame. -/
theorem decodeFrames_cut {p : Packet} (h : Fits p) (behind : Bits) {n : ℕ}
    (hn : markerOffset + frameBits * p.data.length ≤ n) :
    decodeFrames (((onAir p).drop 15 ++ behind).take n) (0 + markerOffset) =
      (p.data, (expectedIndexes p.extended).take p.data.length) := by
  obtain ⟨pad, hpad⟩ := prefix_padToByte (manchesterEncode preamble ++
    canonicalFrames p.extended p.data ++ manchesterEncode trailer)
  have hframes := length_canonicalFrames h
  have hair : ((onAir p).drop 15 ++ behind).drop markerOffset =
      canonicalFrames p.extended p.data ++ (manchesterEncode trailer ++ (pad ++ behind)) := by
    have hlen := length_onAir h
    rw [← List.drop_append_of_le_length (by omega), List.drop_drop, onAir, ← hpad]
    simp only [List.append_assoc]
    exact List.drop_left' (by decide)
  have hdrop : (((onAir p).drop 15 ++ behind).take n).drop (0 + markerOffset) =
      canonicalFrames p.extended p.data ++
        (manchesterEncode trailer ++ (pad ++ behind)).take
          (n - markerOffset - frameBits * p.data.length) := by
    rw [Nat.zero_add, List.drop_take, hair, List.take_append, hframes,
      List.take_of_length_le (by rw [hframes]; omega)]
  exact decodeFrames_of_drop h hdrop (Or.inr (readFrame_trailer_take (pad ++ behind)
    (n - markerOffset - frameBits * p.data.length)))

theorem onAir_header {p : Packet} (h : Fits p) :
    (onAir p).drop 15 = startHeader ++ (onAir p).drop 31 := by
  obtain ⟨tail, htail⟩ := header_onAir [] h
  rw [List.append_nil] at htail
  have hadd : (31 : ℕ) = 15 + startHeader.length := rfl
  rw [hadd, ← List.drop_drop, ← htail, List.drop_left]

/-- A recording that begins with the header of a packet and reaches behind its last frame parses
as that packet first, whatever else is in it. -/
theorem parseBits_recording {p : Packet} (h : Fits p) {minBytes : ℕ}
    (hmin : minBytes ≤ p.data.length) (behind : Bits) {n : ℕ}
    (hn : markerOffset + frameBits * p.data.length ≤ n) (ts : Option Time) :
    ∃ q rest, parseBits (invertBits (((onAir p).drop 15 ++ behind).take n)) ts minBytes = q :: rest ∧
      ReadBack p q ∧ q.timestamp = ts := by
  obtain ⟨q, hq, hback⟩ := parseAt_of_decodeFrames h ts hmin (decodeFrames_cut h behind hn)
  have hframe : frameBits ≤ frameBits * p.data.length :=
    Nat.le_mul_of_pos_right _ (List.length_pos_of_ne_nil p.data_ne)
  have hocc : OccursAt startHeader (((onAir p).drop 15 ++ behind).take n) 0 := by
    have hsize : startHeader.length = 16 := rfl
    rw [OccursAt, List.drop_zero, List.prefix_take_iff, onAir_header h, List.append_assoc]
    exact ⟨List.prefix_append _ _, by simp only [frameBits, markerOffset] at hn hframe; omega⟩
  have hheader := find_of_first (le_refl 0) hocc (fun i hi hlt => absurd hlt (Nat.not_lt.mpr hi))
  have hlate : ∀ j, find startHeaderInv (((onAir p).drop 15 ++ behind).take n) 0 = some j → 0 < j := by
    intro j hj
    rcases Nat.eq_zero_or_pos j with rfl | hpos
    · have hclash : startHeader = startHeaderInv :=
        (List.prefix_of_prefix_length_le hocc (find_eq_some hj).2.1 (le_refl 16)).eq_of_length rfl
      exact absurd hclash (by decide)
    · exact hpos
  have hheaders := findHeaders_of_first hheader hlate true
  rw [if_pos rfl] at hheaders
  have hparse : ∃ rest,
      parseBits (invertBits (((onAir p).drop 15 ++ behind).take n)) ts minBytes = q :: rest := by
    rw [parseBits, hheaders, findAll, hheader]
    exact ⟨_, List.filterMap_cons_some hq⟩
  obtain ⟨rest, hrest⟩ := hparse
  refine ⟨q, rest, hrest, hback, ?_⟩
  rw [parseAt] at hq
  simp only at hq
  split_ifs at hq
  exact (Option.some.inj hq) ▸ rfl

section
variable {air : List Byte → Bits} {record : ℕ → Bits → Option (List Byte)}

/-- With a packet on the air behind noise that holds no start header, a radio records what follows
the header of the packet. -/
theorem record_packet (hair : Airs air) (hrecord : Records record) {p : Packet} (h : Fits p)
    {before after : Bits} {blocksize : ℕ} (hafter : 8 * blocksize ≤ after.length)
    (hquiet : ∀ i < before.length, ¬ OccursAt startHeaderInv
      (before ++ air (bytesFromBits (invertBits (onAir p))) ++ after) i) :
    ∃ block, record blocksize (before ++ air (bytesFromBits (invertBits (onAir p))) ++ after) =
        some block ∧
      bitsFromBytes block = (invertBits ((onAir p).drop 31) ++ after).take (8 * blocksize) := by
  have hline : before ++ air (bytesFromBits (invertBits (onAir p))) ++ after =
      before ++ (lead ++ (invertBits ((onAir p).drop 31) ++ after)) := by
    rw [air_packet hair h, List.append_assoc, List.append_assoc]
  rw [hline] at hquiet ⊢
  have hfind : find startHeaderInv (before ++ (lead ++ (invertBits ((onAir p).drop 31) ++ after))) 0 =
      some (before.length + 63) := by
    apply find_of_first (Nat.zero_le _)
    · rw [occursAt_append]
      exact (header_lead le_rfl).mpr rfl
    · intro i _ hi hocc
      by_cases hbefore : i < before.length
      · exact hquiet i hbefore hocc
      · obtain ⟨j, rfl⟩ := Nat.exists_eq_add_of_le (Nat.not_lt.mp hbefore)
        rw [occursAt_append, header_lead (by omega)] at hocc
        omega
  have hdrop : (before ++ (lead ++ (invertBits ((onAir p).drop 31) ++ after))).drop
      (before.length + 63 + startHeaderInv.length) = invertBits ((onAir p).drop 31) ++ after := by
    have hlead : 63 + startHeaderInv.length = lead.length := by decide
    rw [Nat.add_assoc, hlead, ← List.drop_drop, List.drop_left, List.drop_left]
  have hlong : 8 * blocksize ≤ (invertBits ((onAir p).drop 31) ++ after).length := by
    rw [List.length_append]
    omega
  have hblock := hrecord blocksize _ _ hfind (by rwa [hdrop])
  rw [hdrop] at hblock
  refine ⟨_, hblock, bits_of_aligned ?_⟩
  rw [List.length_take, min_eq_left hlong]
  exact Nat.mul_mod_right 8 blocksize

/-- The header in front of the block makes it a recording that begins with the packet. -/
theorem recording_line {p : Packet} (h : Fits p) (after : Bits) (n : ℕ) :
    startHeaderInv ++ (invertBits ((onAir p).drop 31) ++ after).take n =
      invertBits (((onAir p).drop 15 ++ invertBits after).take (startHeader.length + n)) := by
  have hcut : (startHeader ++ ((onAir p).drop 31 ++ invertBits after)).take
      (startHeader.length + n) = startHeader ++ ((onAir p).drop 31 ++ invertBits after).take n :=
    List.take_length_add_append n
  have htake : ∀ l : Bits, invertBits (l.take n) = (invertBits l).take n := fun l => List.map_take
  rw [onAir_header h, List.append_assoc, hcut, invertBits_append, htake, invertBits_append,
    invertBits_invertBits]
  rfl

/-- A packet sent by one dongle and recorded by another is the first that the recording parses
as, with its bytes and counters, whatever noise was on the air before, holding no start header,
and behind. Its time is the time of the block less the air time of the block. -/
theorem dongle_roundTrip (hair : Airs air) (hrecord : Records record) (p : Packet)
    (hsize : 4 ≤ p.data.length ∧ p.data.length ≤ (if p.extended then 32 else 13))
    (repeats blocksize : ℕ) (hblock : 28 * p.data.length ≤ 8 * blocksize) (before after : Bits)
    (hafter : 8 * blocksize ≤ after.length) (drate : ℚ) (ts : Time) :
    ∃ enc data, p.toBits true = .ok enc ∧
      transmitBits enc repeats false = .ok (List.replicate repeats data) ∧
      ((∀ i < before.length, ¬ OccursAt startHeaderInv (before ++ air data ++ after) i) →
        ∃ block, record blocksize (before ++ air data ++ after) = some block ∧
          block.length = blocksize ∧
          ∃ q rest, parseBits (receiveBits true drate ts block).2
              (some (receiveBits true drate ts block).1) 4 = q :: rest ∧
            q.data = p.data ∧ q.index_ok = some true ∧
            (q.complete = true ↔ p.data.length = if p.extended then 32 else 13) ∧
            q.timestamp = some (ts - blocksize * 8 / drate)) := by
  have hfits : Fits p := hsize.2
  refine ⟨invertBits (onAir p), bytesFromBits (invertBits (onAir p)), toBits_eq hfits true,
    transmitBits_packet hfits repeats, fun hquiet => ?_⟩
  obtain ⟨block, hanswer, hbits⟩ := record_packet hair hrecord hfits hafter hquiet
  have hlen : block.length = blocksize := by
    have hcount := congrArg List.length hbits
    rw [length_bitsFromBytes, List.length_take, List.length_append] at hcount
    omega
  obtain ⟨q, rest, hparse, hback, htime⟩ := parseBits_recording hfits hsize.1
    (invertBits after) (n := startHeader.length + 8 * blocksize)
    (by simp only [markerOffset, frameBits]; have : startHeader.length = 16 := rfl; omega)
    (some (ts - blocksize * 8 / drate))
  refine ⟨block, hanswer, hlen, q, rest, ?_, hback.data, hback.index_ok, hback.complete, htime⟩
  simp only [receiveBits, receive, if_true]
  rw [hbits, hlen, recording_line hfits]
  exact hparse

end

def aired (data : List Byte) : Bits := chipPreamble ++ (syncPreamble ++ bitsFromBytes data)

def recorded (blocksize : ℕ) (bits : Bits) : Option (List Byte) :=
  (find startHeaderInv bits 0).bind (fun n =>
    let block := (bits.drop (n + startHeaderInv.length)).take (8 * blocksize)
    if block.length = 8 * blocksize then some (bytesFromBits block) else none)

theorem airs_aired : Airs aired := fun _ => rfl

theorem records_recorded : Records recorded := by
  intro blocksize bits n hfind hlong
  rw [recorded, hfind, Option.bind_some]
  exact if_pos (by rw [List.length_take, min_eq_left hlong])

theorem quiet_before (data : List Byte) (after : Bits) :
    ∀ i < 20, ¬ OccursAt startHeaderInv (List.replicate 20 true ++ aired data ++ after) i := by
  intro i hi
  have hline : List.replicate 20 true ++ aired data ++ after =
      (List.replicate 20 true ++ chipPreamble) ++ (syncPreamble ++ bitsFromBytes data ++ after) := by
    simp only [aired, List.append_assoc]
  have hsize : startHeaderInv.length = 16 := rfl
  have hlen : (List.replicate 20 true ++ chipPreamble).length = 52 := by decide
  rw [hline, occursAt_append_left (by omega)]
  have hnone : ∀ i < 20, ¬ OccursAt startHeaderInv (List.replicate 20 true ++ chipPreamble) i := by
    decide
  exact hnone i hi

/-- Nine bytes, recorded out of noise in a block of 255. -/
theorem dongle_roundTrip_direct :
    ∃ enc data, (Packet.ofBytes 0x0F#8 [0x07#8, 0x93#8, 0x2B#8, 0x52#8, 0x1C#8, 0x21#8, 0x11#8,
        0xFF#8, 0xB2#8]).toBits true = .ok enc ∧
      ∃ block, recorded 255 (List.replicate 20 true ++ aired data ++ List.replicate 2040 true) =
          some block ∧
        ∃ q rest, parseBits (receiveBits true 9124 10 block).2
            (some (receiveBits true 9124 10 block).1) 4 = q :: rest ∧
          q.data.length = 10 ∧ q.timestamp = some ((10 : ℚ) - ((255 : ℕ) : ℚ) * 8 / 9124) := by
  obtain ⟨enc, data, henc, -, hrun⟩ := dongle_roundTrip airs_aired records_recorded
    (Packet.ofBytes 0x0F#8 [0x07#8, 0x93#8, 0x2B#8, 0x52#8, 0x1C#8, 0x21#8, 0x11#8, 0xFF#8, 0xB2#8])
    (by decide) 1 255 (by decide) (List.replicate 20 true) (List.replicate 2040 true)
    (by rw [List.length_replicate]) 9124 10
  obtain ⟨block, hanswer, -, q, rest, hparse, hdata, -, -, htime⟩ :=
    hrun (fun i hi => quiet_before data _ i (by rwa [List.length_replicate] at hi))
  exact ⟨enc, data, henc, block, hanswer, q, rest, hparse, by rw [hdata]; rfl, htime⟩

end InsteonRf.Rfcat
