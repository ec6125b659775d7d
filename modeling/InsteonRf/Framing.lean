import InsteonRf.Packet
import InsteonRf.Lib.LsbBits
import InsteonRf.Lib.StringSearch

/-!
# Air framing

Each byte goes on the air as a 28-symbol frame: the marker `11`, then a 5-bit
index and the 8 data bits, Manchester-coded, both least significant bit first.
The index is 31 for the flags byte and then counts down to 0. A receiver finds a
packet by its start header and may see either polarity.
-/
namespace InsteonRf
open LsbBits StringSearch

def startHeader : Bits :=
  [true, true, false, false, true, true, true, false,
   true, false, true, false, true, false, true, false]

def startHeaderInv : Bits := invertBits startHeader

/-- Position of the first frame marker within the start header. -/
def markerOffset : ℕ := 5

def frameBits : ℕ := 28

def preamble : Bits := (List.replicate 5 [false, true]).flatten

/-- `01` twenty-four times. -/
def trailer : Bits := (List.replicate 24 [false, true]).flatten

def frame (idx : ℕ) (b : Byte) : Bits :=
  [true, true] ++ manchesterEncode (lsbBits 5 idx ++ lsbBits 8 b.toNat)

/-- The frame loop of `to_bits` from byte `i` on. A negative index formats with a
minus sign, which the Manchester coder rejects; the error is that character. -/
def encodeFrames (extended : Bool) : ℕ → ℤ → List Byte → Except Char Bits
  | _, _, [] => .ok []
  | i, idx, b :: rest =>
      let idx := if i = 1 then (if extended then 30 else 11) else idx
      if idx < 0 then .error ('-')
      else (encodeFrames extended (i + 1) (idx - 1) rest).map (frame idx.toNat b ++ ·)

/-- Pad to a multiple of eight symbols with the start of another trailer. -/
def padToByte (bits : Bits) : Bits :=
  if bits.length % 8 ≠ 0 then bits ++ (manchesterEncode trailer).take (8 - bits.length % 8) else bits

/-- The framed bit string of a packet; `invert` yields on-air polarity. -/
def Packet.toBits (p : Packet) (invert : Bool) : Except Char Bits :=
  (encodeFrames p.extended 0 31 p.data).map (fun fs =>
    let bits := padToByte (manchesterEncode preamble ++ fs ++ manchesterEncode trailer)
    if invert then invertBits bits else bits)

/-- One frame at the head of the string: marker, legal Manchester pairs, full length. -/
def readFrame (l : Bits) : Option (ℕ × Byte) :=
  if l.take 2 = [true, true] then
    match manchesterDecode ((l.drop 2).take (frameBits - 2)) with
    | .error _ => none
    | .ok dm =>
        if dm.length < 13 then none
        else some (ofLsbBits (dm.take 5), BitVec.ofNat 8 (ofLsbBits ((dm.drop 5).take 8)))
  else none

/-- The decoding loop: frames until the first bad one, or through index 0. -/
def readFrames : ℕ → Bits → List (ℕ × Byte)
  | 0, _ => []
  | fuel + 1, l =>
      match readFrame l with
      | none => []
      | some (idx, b) =>
          if idx = 0 then [(idx, b)] else (idx, b) :: readFrames fuel (l.drop frameBits)

/-- The bytes and the indexes of the consecutive frames from `start` on. -/
def decodeFrames (bits : Bits) (start : ℕ) : List Byte × List ℕ :=
  let fs := readFrames bits.length (bits.drop start)
  (fs.map Prod.snd, fs.map Prod.fst)

def headerInverted (bits : Bits) : Bool :=
  match find startHeader bits 0, find startHeaderInv bits 0 with
  | none, none => false
  | none, some _ => true
  | some _, none => false
  | some a, some b => decide (b < a)

/-- Normalise polarity and list the header offsets. -/
def findHeaders (bits : Bits) : Bits × List ℕ :=
  let bits := if headerInverted bits then invertBits bits else bits
  (bits, findAll startHeader bits (bits.length + 1) 0)

/-- The index sequence a packet of this kind must carry. -/
def expectedIndexes (extended : Bool) : List ℕ :=
  31 :: (List.range (if extended then 31 else 12)).reverse

def indexesOk (data : List Byte) (idx : List ℕ) : Bool :=
  if idx = [] ∨ data = [] then false
  else decide (idx = (expectedIndexes (isExtended (firstByte data))).take idx.length)

def parseAt (bits : Bits) (timestamp : Option Time) (minBytes pos : ℕ) : Option Packet :=
  let (data, idx) := decodeFrames bits (pos + markerOffset)
  if h : data ≠ [] ∧ minBytes ≤ data.length then
    some { data, data_ne := h.1
           bits := (bits.drop pos).take (markerOffset + frameBits * data.length)
           timestamp
           complete := decide (idx.getLast? = some 0)
           index_ok := some (indexesOk data idx) }
  else none

/-- Every packet of one bit string, of any polarity and alignment. The source's
default for `minBytes` is 4 and no caller passes less. -/
def parseBits (line : Bits) (timestamp : Option Time) (minBytes : ℕ) : List Packet :=
  let (bits, offsets) := findHeaders line
  offsets.filterMap (parseAt bits timestamp minBytes)

@[simp] theorem length_frame (idx : ℕ) (b : Byte) : (frame idx b).length = frameBits := by
  simp [frame, frameBits]

theorem readFrame_frame {idx : ℕ} (h : idx < 32) (b : Byte) (rest : Bits) :
    readFrame (frame idx b ++ rest) = some (idx, b) := by
  have hmark : (frame idx b ++ rest).take 2 = [true, true] := rfl
  have hbody : ((frame idx b ++ rest).drop 2).take (frameBits - 2) =
      manchesterEncode (lsbBits 5 idx ++ lsbBits 8 b.toNat) :=
    List.take_left' (by simp [frameBits])
  have hidx : ofLsbBits ((lsbBits 5 idx ++ lsbBits 8 b.toNat).take 5) = idx := by
    rw [List.take_left' (length_lsbBits 5 idx), ofLsbBits_lsbBits (by omega)]
  have hbyte : ofLsbBits (((lsbBits 5 idx ++ lsbBits 8 b.toNat).drop 5).take 8) = b.toNat := by
    rw [List.drop_left' (length_lsbBits 5 idx), List.take_of_length_le (by simp),
      ofLsbBits_lsbBits b.isLt]
  have hfull : ¬ (lsbBits 5 idx ++ lsbBits 8 b.toNat).length < 13 := by simp
  rw [readFrame, if_pos hmark, hbody, manchesterDecode_encode]
  simp only [hfull, if_false, hidx, hbyte, BitVec.ofNat_toNat, BitVec.setWidth_eq]

/-- A frame that reads well is the frame its index and byte are sent as. -/
theorem frame_of_readFrame {l : Bits} {idx : ℕ} {b : Byte} (h : readFrame l = some (idx, b)) :
    idx < 32 ∧ l.take frameBits = frame idx b := by
  rw [readFrame] at h
  split_ifs at h with hmark
  cases hdm : manchesterDecode ((l.drop 2).take (frameBits - 2)) with
  | error e => simp [hdm] at h
  | ok dm =>
      simp only [hdm] at h
      split_ifs at h with hshort
      obtain ⟨hi, hb⟩ := Prod.mk.inj (Option.some.inj h)
      obtain ⟨henc, hlen⟩ := encode_of_decodeFrom hdm
      have hbody : ((l.drop 2).take (frameBits - 2)).length = 26 := by
        have hle : ((l.drop 2).take (frameBits - 2)).length ≤ 26 := by simp [frameBits]
        omega
      have hdm13 : dm.length = 13 := by omega
      have hlow : (dm.take 5).length = 5 := by simp [hdm13]
      have hhigh : ((dm.drop 5).take 8).length = 8 := by simp [hdm13]
      have hsplit : dm = lsbBits 5 idx ++ lsbBits 8 b.toNat := by
        have hbyte : b.toNat = ofLsbBits ((dm.drop 5).take 8) := by
          have hlt := ofLsbBits_lt ((dm.drop 5).take 8)
          rw [hhigh] at hlt
          rw [← hb, BitVec.toNat_ofNat, Nat.mod_eq_of_lt hlt]
        have hfive := lsbBits_ofLsbBits (dm.take 5)
        have height := lsbBits_ofLsbBits ((dm.drop 5).take 8)
        rw [hlow, hi] at hfive
        rw [hhigh, ← hbyte, List.take_of_length_le (by simp [hdm13])] at height
        rw [hfive, height, List.take_append_drop]
      constructor
      · have hlt := ofLsbBits_lt (dm.take 5)
        rw [hlow, hi] at hlt
        exact hlt
      · have htake : l.take frameBits = l.take 2 ++ (l.drop 2).take (frameBits - 2) := by
          have hadd : frameBits = 2 + (frameBits - 2) := rfl
          rw [hadd, List.take_add]
          rfl
        have hself : ((l.drop 2).take (frameBits - 2)).take (2 * dm.length) =
            (l.drop 2).take (frameBits - 2) := List.take_of_length_le (by omega)
        rw [htake, hmark, frame, ← hsplit, henc, hself]

end InsteonRf
