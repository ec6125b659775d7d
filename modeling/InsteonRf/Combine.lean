import InsteonRf.Framing
import InsteonRf.Lib.Selection

/-!
# Combining damaged copies

Several receivers' copies of one transmission are voted symbol by symbol; when
the vote still fails its checks, small sets of doubtful positions are flipped.
-/
namespace InsteonRf
open Selection

def maxCombineFlips : ℕ := 2
def maxDisagreements : ℕ := 12
def minCompareBits : ℕ := 200

/-- One receiver's decode of one transmission. `bits` is its whole capture from
this packet's start header on; `soft` is the per-symbol confidence aligned with it.
`clock` is what the wall clock shows when neither timestamp is given. -/
structure Sighting where
  packet : Packet
  receiver : String
  rssi_dbm : Option ℚ := none
  timestamp : Option Time := none
  bits : Bits
  snr_db : Option ℚ := none
  soft : Option (List ℚ) := none
  raw_when : Option Time := none
  clock : Time := 0
  soft_covers : ∀ v, soft = some v → bits.length ≤ v.length
  deriving DecidableEq

namespace Sighting

def usableSoft (bits : Bits) (soft : Option (List ℚ)) : Option (List ℚ) :=
  soft.filter (fun v => decide (bits.length ≤ v.length))

theorem usableSoft_covers (bits : Bits) (soft : Option (List ℚ)) :
    ∀ v, usableSoft bits soft = some v → bits.length ≤ v.length := by
  intro v h
  exact of_decide_eq_true (Option.filter_eq_some_iff.mp h).2

/-- The constructor with its defaulting: missing bits are the packet's own. -/
def build (packet : Packet) (receiver : String) (rssi_dbm : Option ℚ) (timestamp : Option Time)
    (bits : Bits) (snr_db : Option ℚ) (soft : Option (List ℚ)) (clock : Time) : Sighting :=
  let bits := if bits = [] then packet.bits else bits
  { packet, receiver, rssi_dbm, timestamp, bits, snr_db, clock
    soft := usableSoft bits soft
    soft_covers := usableSoft_covers bits soft }

/-- What a receiver hands over when these bytes reach it framed without error. -/
def framed (flags : Byte) (rest : List Byte) (receiver : String) (rssi_dbm : Option ℚ)
    (timestamp : Time) : Sighting :=
  let packet := Packet.ofBytes flags rest
  let bits := match packet.toBits false with
    | .ok bits => bits.drop 15
    | .error _ => []
  build { packet with
      bits := bits.take (markerOffset + frameBits * packet.data.length)
      timestamp := some timestamp
      index_ok := some true }
    receiver rssi_dbm (some timestamp) bits none none timestamp

/-- This copy's contribution to a vote: its confidence, or one in each direction. -/
def votes (s : Sighting) : List ℚ :=
  match s.soft with
  | some v => v.take s.bits.length
  | none => s.bits.map (fun b => if b then 1 else -1)

def when (s : Sighting) : Time :=
  match s.timestamp with
  | some t => t
  | none => s.packet.timestamp.getD s.clock

end Sighting

/-- Bit distance over the common prefix, or `none` if that is too short to compare;
stops early once `limit` is exceeded. -/
def hammingFrom (limit : ℕ) : ℕ → Bits → Bits → ℕ
  | d, a :: as, b :: bs =>
      if a ≠ b then
        if limit < d + 1 then d + 1 else hammingFrom limit (d + 1) as bs
      else hammingFrom limit d as bs
  | d, _, _ => d

def hamming (a b : Bits) (limit : ℕ) : Option ℕ :=
  if min a.length b.length < minCompareBits then none else some (hammingFrom limit 0 a b)

/-- The voted bits, the positions where hard decisions disagreed, and the mean
signed vote of each position. -/
structure Vote where
  bits : Bits
  disagree : List ℕ
  margin : List ℚ

/-- Position by position, what the copies that reach it say there, in order of arrival. -/
def columns : ℕ → List (List ℚ) → List (List ℚ)
  | 0, _ => []
  | width + 1, rows => rows.filterMap List.head? :: columns width (rows.map List.tail)

def columnMargin (c : List ℚ) : ℚ := c.sum / max (c.length : ℚ) 1

/-- The sign of the margin; on a tie the first copy to reach the position decides. -/
def decideColumn (c : List ℚ) : Bool :=
  let margin := columnMargin c
  if 0 < margin then true
  else if margin < 0 then false
  else decide (0 < c.headD 0)

def disputed (c : List ℚ) : Bool :=
  let ones := c.countP (fun v => decide (0 < v))
  decide (0 < ones ∧ ones < c.length)

/-- Vote the aligned copies; needs two, or one that carries confidence. -/
def vote (sightings : List Sighting) : Option Vote :=
  match sightings.filter (fun s => decide (s.bits ≠ [])) with
  | [] => none
  | first :: rest =>
      if rest = [] ∧ first.soft = none then none
      else
        let runs := first :: rest
        let width := (runs.map (fun s => s.bits.length)).foldl max 0
        let cs := columns width (runs.map Sighting.votes)
        some { bits := cs.map decideColumn
               disagree := (cs.zipIdx.filter (fun c => disputed c.1)).map Prod.snd
               margin := cs.map columnMargin }

/-- How many bits from the header a packet of these bits occupies: as the flags
byte has it when the first frame survived, else as a standard packet. -/
def packetExtent (bits : Bits) : ℕ :=
  let (data, _) := decodeFrames bits markerOffset
  let frames := if data ≠ [] ∧ isExtended (firstByte data) then extLen else stdLen
  markerOffset + frameBits * frames

def acceptable (p : Packet) : Bool :=
  decide (p.crcOk = some true) && decide (p.index_ok ≠ some false) && p.hopsOk &&
    !(p.extended && decide (p.extCrcOk = some false))

/-- Parse a candidate and take the first packet that is unambiguously one. -/
def accept (bits : Bits) (timestamp : Option Time) : Option Packet :=
  (parseBits bits timestamp 4).find? acceptable

/-- The positions to try flipping, least sure first when there is confidence. -/
def suspectPositions (sightings : List Sighting) (voted : Vote) : List ℕ :=
  if sightings.any (fun s => s.soft.isSome) then
    let extent := min (packetExtent voted.bits) voted.bits.length
    let order := sortOn (fun i => |voted.margin.getD i 0|) (List.range extent)
    let suspects := order.take maxDisagreements
    (suspects ++ voted.disagree.filter (fun i => decide (i ∉ suspects))).take maxDisagreements
  else voted.disagree

def flipAt (bits : Bits) (positions : List ℕ) : Bits :=
  positions.foldl (fun l i => l.modify i (!·)) bits

/-- Recover a packet from copies where no single one is intact, with the number
of sightings it drew on. -/
def combine (sightings : List Sighting) : Option (Packet × ℕ) :=
  match vote sightings with
  | none => none
  | some voted =>
      let timestamp := sightings.head?.map Sighting.when
      match accept voted.bits timestamp with
      | some p => some (p, sightings.length)
      | none =>
          if maxDisagreements < voted.disagree.length then none
          else
            let suspects := suspectPositions sightings voted
            let flips := (List.range maxCombineFlips).flatMap (fun n => combinations suspects (n + 1))
            (flips.findSome? (fun positions => accept (flipAt voted.bits positions) timestamp)).map
              (fun p => (p, sightings.length))

/-- Whatever `combine` answers counts every sighting it was given. -/
theorem combine_count {sightings : List Sighting} {p : Packet} {n : ℕ}
    (h : combine sightings = some (p, n)) : n = sightings.length := by
  cases hv : vote sightings with
  | none => simp [combine, hv] at h
  | some voted =>
      cases ha : accept voted.bits (sightings.head?.map Sighting.when) with
      | some q =>
          simp only [combine, hv, ha, Option.some.injEq, Prod.mk.injEq] at h
          exact h.2.symm
      | none =>
          simp only [combine, hv, ha] at h
          split_ifs at h
          obtain ⟨q, -, hq⟩ := Option.map_eq_some_iff.mp h
          exact (Prod.mk.inj hq).2.symm

end InsteonRf
