import InsteonRf.Combine
import InsteonRf.ClockSkew
import InsteonRf.Lib.Rounding
import InsteonRf.Lib.SignedIndex

/-!
# Soft-decision recovery

A second decoder for damaged bursts. It takes each Manchester pair by the difference
of its two soft values, reads as many frames as the flags byte asks for, checks them
against the frame counters, and flips the least confident data bits in search of a
matching CRC.
-/
namespace InsteonRf
open LsbBits Selection SignedIndex Rounding

structure RecoverOptions where
  max_flips : ℤ := 2
  candidates : ℤ := 10
  max_index_errors : ℤ := 1
  repair : Bool := true
  deriving DecidableEq, Repr

structure Recovered where
  packet : Packet
  corrected : ℕ
  index_errors : ℕ
  manchester_errors : ℕ
  min_confidence : ℚ
  deriving DecidableEq, Repr

/-- A position outside the soft values. -/
structure IndexError where
  index : ℤ
  size : ℕ
  deriving DecidableEq, Repr

namespace Recover

def frameIndexBits : ℕ := 5
def frameDataBits : ℕ := 8
def frameLogicalBits : ℕ := frameIndexBits + frameDataBits

def suspectRatio : ℚ := 1 / 2

def hardSoft (bits : Bits) : List ℚ := bits.map (fun b => if b then 1 else -1)

theorem map_float32_hardSoft (bits : Bits) : (hardSoft bits).map float32 = hardSoft bits := by
  rw [hardSoft, List.map_map]
  apply List.map_congr_left
  rintro b -
  cases b <;> simp

/-- Per-symbol signed confidence in single precision; one in each direction for want of
soft values. -/
def softFor (bits : Bits) (soft : Option (List ℚ)) : List ℚ :=
  match soft with
  | some v => if bits.length ≤ v.length then (v.take bits.length).map float32 else hardSoft bits
  | none => hardSoft bits

/-- One Manchester pair: the decision, its confidence, and whether the two hard
decisions are no legal pair. -/
structure Reading where
  value : Bool
  conf : ℚ
  illegal : Bool
  deriving DecidableEq, Repr

def reading (s₀ s₁ : ℚ) : Reading where
  value := decide (0 < s₁ - s₀)
  conf := |s₁ - s₀|
  illegal := decide (0 < s₀) == decide (0 < s₁)

def symbol (sym : List ℚ) (i : ℤ) : Except IndexError ℚ :=
  match get? sym i with
  | some s => .ok s
  | none => .error ⟨i, sym.length⟩

/-- The next `count` pairs, or as many as there are. -/
def logical (sym : List ℚ) : ℤ → ℕ → Except IndexError (List Reading)
  | _, 0 => .ok []
  | a, count + 1 =>
      if (sym.length : ℤ) ≤ a + 1 then .ok []
      else do
        let s₀ ← symbol sym a
        let s₁ ← symbol sym (a + 1)
        let rest ← logical sym (a + 2) count
        return reading s₀ s₁ :: rest

/-- The readings of up to `nframes` frames, as far as these are complete. -/
def logicalFrames (sym : List ℚ) : ℤ → ℕ → Except IndexError (List Reading)
  | _, 0 => .ok []
  | base, nframes + 1 => do
      let v ← logical sym (base + 2) frameLogicalBits
      if v.length < frameLogicalBits then return []
      let rest ← logicalFrames sym (base + frameBits) nframes
      return v ++ rest

def bytesFrom (values : List Bool) (nframes : ℕ) : List Byte :=
  (List.range nframes).map (fun f =>
    BitVec.ofNat 8 (ofLsbBits ((values.drop (f * frameLogicalBits + frameIndexBits)).take
      frameDataBits)))

def countersFrom (values : List Bool) (nframes : ℕ) : List ℕ :=
  (List.range nframes).map (fun f =>
    ofLsbBits ((values.drop (f * frameLogicalBits)).take frameIndexBits))

def indexErrors (values : List Bool) (nframes : ℕ) (extended : Bool) : ℕ :=
  ((countersFrom values nframes).zip (expectedIndexes extended)).countP (fun c => c.1 != c.2)

def crcOk (data : List Byte) (extended : Bool) : Bool :=
  if extended then
    if data.length ≤ extCrcIndex then false
    else decide (data.getD extCrcIndex 0 = pktCrc data) && decide (data.getD 22 0 = extCrc data)
  else if data.length ≤ stdCrcIndex then false
  else decide (data.getD stdCrcIndex 0 = pktCrc data)

/-- The positions of the data bits among the readings. -/
def dataPositions (nframes size : ℕ) : List ℕ :=
  ((List.range nframes).flatMap (fun f =>
    (List.range frameDataBits).map (fun b => f * frameLogicalBits + frameIndexBits + b))).filter
      (fun p => decide (p < size))

/-- The least confident data bits, the worst first. -/
def suspects (conf : List ℚ) (nframes size : ℕ) (candidates : ℤ) : List ℕ :=
  let positions := dataPositions nframes size
  let confAt := fun p => conf.getD p 0
  let middle := median (positions.map confAt)
  let middle := if middle = 0 then 1 else middle
  upTo (sortOn confAt (positions.filter (fun p => decide (confAt p ≤ suspectRatio * middle))))
    candidates

def passes (nframes : ℕ) (extended : Bool) (trial : List Bool) : Bool :=
  crcOk (bytesFrom trial nframes) extended && decide (indexErrors trial nframes extended = 0)

/-- The first set of positions whose flipping makes the checks pass. -/
def search (values : List Bool) (conf : List ℚ) (nframes : ℕ) (extended : Bool)
    (max_flips candidates : ℤ) : Option (List ℕ) :=
  let positions := suspects conf nframes values.length candidates
  ((List.range max_flips.toNat).flatMap (fun k => combinations positions (k + 1))).find?
    (fun combo => passes nframes extended (flipAt values combo))

/-- The repaired bytes and the number of flips. -/
def repair (values : List Bool) (conf : List ℚ) (nframes : ℕ) (extended : Bool)
    (max_flips candidates : ℤ) : Option (List Byte × ℕ) :=
  (search values conf nframes extended max_flips candidates).map
    (fun combo => (bytesFrom (flipAt values combo) nframes, combo.length))

/-- The bytes to answer with, the flips they took, and the counter errors left. -/
def settle (values : List Bool) (conf : List ℚ) (nframes : ℕ) (extended : Bool)
    (o : RecoverOptions) : Option (List Byte × ℕ × ℕ) :=
  let data := bytesFrom values nframes
  let bad := indexErrors values nframes extended
  if o.max_index_errors < bad then none
  else if crcOk data extended then some (data, 0, bad)
  else if o.repair then
    (repair values conf nframes extended o.max_flips o.candidates).map (fun r => (r.1, r.2, 0))
  else none

/-- Decide on the frames read from the header at `pos`. -/
def judge (bits : Bits) (all : List Reading) (extended : Bool) (pos : ℤ) (timestamp : Option Time)
    (o : RecoverOptions) : Option Recovered :=
  let nframes := all.length / frameLogicalBits
  match settle (all.map Reading.value) (all.map Reading.conf) nframes extended o with
  | none => none
  | some (data, corrected, bad) =>
      if h : data = [] then none  -- no frame was complete
      else
        let packet : Packet :=
          { data, data_ne := h
            bits := slice bits pos (pos + markerOffset + nframes * frameBits)
            timestamp, complete := true, corrected, index_ok := some true }
        if packet.hopsOk then
          some { packet, corrected, index_errors := bad
                 manchester_errors := all.countP Reading.illegal
                 min_confidence := ((all.map Reading.conf).min?).getD 0 }
        else none

/-- The kind of packet the first reading of the flags byte announces at `pos`, and the
frames of it the soft values hold. -/
def readPacket (sym : List ℚ) (pos : ℤ) : Except IndexError (Option (Bool × List Reading)) := do
  let first := pos + markerOffset
  let head ← logical sym (first + 2) frameLogicalBits
  if head.length < frameLogicalBits then return none
  let extended := isExtended (firstByte (bytesFrom (head.map Reading.value) 1))
  let all ← logicalFrames sym first (if extended then extLen else stdLen)
  return some (extended, all)

/-- `_recover_at`: one packet from the header at `pos`. -/
def recoverFrom (bits : Bits) (sym : List ℚ) (pos : ℤ) (timestamp : Option Time)
    (o : RecoverOptions) : Except IndexError (Option Recovered) := do
  match ← readPacket sym pos with
  | none => return none
  | some (extended, all) => return judge bits all extended pos timestamp o

/-- Decode the one packet whose start header is at `pos`. -/
def recoverAt (bits : Bits) (soft : Option (List ℚ)) (pos : ℤ) (timestamp : Option Time)
    (o : RecoverOptions) : Except IndexError (Option Recovered) :=
  recoverFrom bits (softFor bits soft) pos timestamp o

/-- The soft values in the polarity of `findHeaders`. -/
def alignedSoft (line : Bits) (soft : Option (List ℚ)) : List ℚ :=
  let sym := softFor line soft
  if (findHeaders line).1 ≠ line then sym.map (- ·) else sym

/-- The header offsets to try; the correlator's own comes first. -/
def offsets (line : Bits) (header_index : Option ℤ) : List ℤ :=
  let found := (findHeaders line).2.map (fun (i : ℕ) => (i : ℤ))
  match header_index with
  | some h => if h ∈ found then found else h :: found
  | none => found

/-- Decode every packet in a burst; of equal packets the first counts. -/
def recoverPackets (line : Bits) (soft : Option (List ℚ)) (timestamp : Option Time)
    (header_index : Option ℤ) (o : RecoverOptions) : Except IndexError (List Recovered) := do
  let found ← (offsets line header_index).mapM (fun pos =>
    recoverFrom (findHeaders line).1 (alignedSoft line soft) pos timestamp o)
  return firstOfEach (fun r => r.packet.data) [] (found.filterMap id)

/-- The next `count` pairs of a list of soft values. -/
def readings : List ℚ → ℕ → List Reading
  | s₀ :: s₁ :: l, count + 1 => reading s₀ s₁ :: readings l count
  | _, _ => []

def frameReadings : List ℚ → ℕ → List Reading
  | _, 0 => []
  | l, nframes + 1 =>
      if (readings (l.drop 2) frameLogicalBits).length < frameLogicalBits then []
      else readings (l.drop 2) frameLogicalBits ++ frameReadings (l.drop frameBits) nframes

/-- `readPacket` at an offset that a header search found. -/
def readPacketAt (sym : List ℚ) (pos : ℕ) : Option (Bool × List Reading) :=
  let l := sym.drop (pos + markerOffset)
  let head := readings (l.drop 2) frameLogicalBits
  if head.length < frameLogicalBits then none
  else
    let extended := isExtended (firstByte (bytesFrom (head.map Reading.value) 1))
    some (extended, frameReadings l (if extended then extLen else stdLen))

/-- `recoverFrom` at an offset that a header search found. -/
def recoverAtOffset (bits : Bits) (sym : List ℚ) (pos : ℕ) (timestamp : Option Time)
    (o : RecoverOptions) : Option Recovered :=
  (readPacketAt sym pos).bind (fun f => judge bits f.2 f.1 pos timestamp o)

theorem symbol_natCast {sym : List ℚ} {i : ℕ} (h : i < sym.length) :
    symbol sym (i : ℤ) = .ok sym[i] := by
  simp [symbol, h]

theorem logical_natCast (sym : List ℚ) (a count : ℕ) :
    logical sym (a : ℤ) count = .ok (readings (sym.drop a) count) := by
  induction count generalizing a with
  | zero =>
      rw [logical]
      unfold readings
      split <;> simp_all
  | succ count ih =>
      rw [logical]
      split_ifs with hend
      · have hshort : (sym.drop a).length ≤ 1 := by
          rw [List.length_drop]
          omega
        match h : sym.drop a, hshort with
        | [], _ => rfl
        | [s], _ => rfl
      · have h₀ : a < sym.length := by omega
        have h₁ : a + 1 < sym.length := by omega
        have hcons : sym.drop a = sym[a] :: sym[a + 1] :: sym.drop (a + 2) := by
          rw [List.drop_eq_getElem_cons h₀, List.drop_eq_getElem_cons h₁]
        have hnext : (a : ℤ) + 1 = ((a + 1 : ℕ) : ℤ) := by push_cast; rfl
        have hrest : (a : ℤ) + 2 = ((a + 2 : ℕ) : ℤ) := by push_cast; rfl
        rw [hnext, hrest, symbol_natCast h₀, symbol_natCast h₁, ih, hcons]
        rfl

theorem logicalFrames_natCast (sym : List ℚ) (base nframes : ℕ) :
    logicalFrames sym (base : ℤ) nframes = .ok (frameReadings (sym.drop base) nframes) := by
  induction nframes generalizing base with
  | zero => rfl
  | succ nframes ih =>
      have htwo : (base : ℤ) + 2 = ((base + 2 : ℕ) : ℤ) := by push_cast; rfl
      have hnext : (base : ℤ) + frameBits = ((base + frameBits : ℕ) : ℤ) := by push_cast; rfl
      rw [logicalFrames, frameReadings, htwo, hnext, logical_natCast, ih, List.drop_drop,
        List.drop_drop]
      simp only [bind, Except.bind, pure, Except.pure]
      split_ifs <;> rfl

theorem readPacket_natCast (sym : List ℚ) (pos : ℕ) :
    readPacket sym (pos : ℤ) = .ok (readPacketAt sym pos) := by
  have hfirst : (pos : ℤ) + markerOffset = ((pos + markerOffset : ℕ) : ℤ) := by push_cast; rfl
  have htwo : ((pos + markerOffset : ℕ) : ℤ) + 2 = ((pos + markerOffset + 2 : ℕ) : ℤ) := by
    push_cast
    rfl
  rw [readPacket, readPacketAt]
  simp only [hfirst, htwo, logical_natCast, logicalFrames_natCast, List.drop_drop, bind,
    Except.bind, pure, Except.pure]
  split_ifs <;> rfl

theorem recoverFrom_natCast (bits : Bits) (sym : List ℚ) (pos : ℕ) (ts : Option Time)
    (o : RecoverOptions) :
    recoverFrom bits sym (pos : ℤ) ts o = .ok (recoverAtOffset bits sym pos ts o) := by
  rw [recoverFrom, readPacket_natCast, recoverAtOffset]
  cases readPacketAt sym pos <;> rfl

end Recover

end InsteonRf
