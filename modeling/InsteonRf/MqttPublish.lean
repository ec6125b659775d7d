import InsteonRf.MqttCapture
import Mathlib.Data.Prod.Lex

/-!
# Publishing a burst as a capture

A host radio ships the symbols behind the start header and says which header it was. An
exact header near the correlator's position wins; without one the position itself counts, in
the polarity its symbols are nearer to. Without a position the first header of either
polarity counts.
-/
namespace InsteonRf.Mqtt
open LsbBits StringSearch

/-- `HEADER_SNAP`: two preamble cells. -/
def headerSnap : ℕ := 8

/-- The exact headers near a position: how far off, where, and which. -/
def nearHeaders (bits : Bits) (h : ℕ) : List (ℕ × ℕ × Bits) :=
  ((List.range (min (bits.length - startHeader.length) (h + headerSnap) + 1)).filter
      (fun i => decide (h - headerSnap ≤ i))).flatMap (fun i =>
    ([startHeaderInv, startHeader].filter (fun header => decide (OccursAt header bits i))).map
      (fun header => (((i : ℤ) - h).natAbs, i, header)))

/-- The least by distance, then position, then header. -/
def nearest (found : List (ℕ × ℕ × Bits)) : Option (ℕ × ℕ × Bits) :=
  ((found.map (fun e => toLex (e.1, toLex e.2))).min?).map
    (fun e => ((ofLex e).1, ofLex (ofLex e).2))

/-- The header a correlator's position stands for. -/
def snapHeader (bits : Bits) (h : ℕ) : ℕ × Bits :=
  match nearest (nearHeaders bits h) with
  | some (_, pos, header) => (pos, header)
  | none =>
      let seen := (bits.drop h).take startHeader.length
      let wrong := (seen.zip startHeaderInv).countP (fun s => s.1 != s.2)
      (h, if startHeader.length / 2 < wrong then startHeader else startHeaderInv)

def firstHeader (bits : Bits) : Option ℕ × Bits :=
  let pos := find startHeaderInv bits 0
  match find startHeader bits 0 with
  | some alt =>
      if pos.all (fun i => decide (alt < i)) then (some alt, startHeader) else (pos, startHeaderInv)
  | none => (pos, startHeaderInv)

def burstHeader (bits : Bits) (header_index : Option ℤ) : Option ℕ × Bits :=
  match header_index with
  | some h =>
      if 0 ≤ h ∧ h ≤ (bits.length : ℤ) - startHeader.length then
        let (pos, header) := snapHeader bits h.toNat
        (some pos, header)
      else firstHeader bits
  | none => firstHeader bits

def Double.toInt (x : Double) : Except Raised ℤ :=
  match x with
  | .finite q => .ok (if 0 ≤ q then ⌊q⌋ else ⌈q⌉)
  | .inf _ => .error .OverflowError
  | .nan => .error .ValueError

/-- `x * n`, which may leave the floats. -/
def Double.scale (x : Double) (n : ℤ) : Double :=
  match x with
  | .finite q => if |q * n| < doubleLimit then .finite (q * n) else .inf (decide (q * n < 0))
  | .inf negative => .inf (negative != decide (n < 0))
  | .nan => .nan

def Double.roundTenth (x : Double) : Double :=
  match x with
  | .finite q => .finite (Rounding.rint (q * 10) / 10)
  | x => x

def optionalFloat (x : Option Double) : Json := x.elim .null .float

structure BurstInfo where
  receiver : String
  timestamp : Double
  rssi_dbm : Option Double := none
  seq : ℤ := 0
  snr_db : Option Double := none

def base64Text (data : List Byte) : Json := .str (String.ofList (Base64.encode data))

/-- The soft values of a burst, the pad symbols included, where there are enough of them. -/
def softMember (bits : Bits) (soft : Option (List ℚ)) : List (String × Json) :=
  match soft with
  | some v =>
      if bits.length ≤ v.length then
        [("s", base64Text (softToBytes (v.take bits.length) ++
          List.replicate (padCount bits.length) 0))]
      else []
  | none => []

def snrMember (snr_db : Option Double) : List (String × Json) :=
  snr_db.elim [] (fun x => [("snr", .float x.roundTenth)])

/-- The record of a burst that was cut behind its header. -/
def captureMembers (bits header : Bits) (soft : Option (List ℚ)) (t : ℤ) (info : BurstInfo) :
    List (String × Json) :=
  [("n", .str info.receiver), ("seq", .int info.seq), ("t", .int t),
    ("rssi", optionalFloat info.rssi_dbm), ("len", .int ((bits.length + 7) / 8 : ℕ)),
    ("sw", .str (HexText.hex4 (ofMsbBits header))), ("b", base64Text (bytesFromBits bits))] ++
      softMember bits soft ++ snrMember info.snr_db

/-- The JSON object that `publish_capture` sends. -/
def captureRecord (bits : Bits) (soft : Option (List ℚ)) (header_index : Option ℤ)
    (info : BurstInfo) : Except Raised (List (String × Json)) := do
  let (pos, header) := burstHeader bits header_index
  let cut := pos.elim 0 (· + header.length)
  let t ← (info.timestamp.scale 1000).toInt
  return captureMembers (bits.drop cut) header (soft.map (List.drop cut)) t info

/-- The topic and the payload of a capture; `dumps` is `json.dumps`. -/
def publishCapture (dumps : Json → String) (base : String) (topic : Option String) (bits : Bits)
    (soft : Option (List ℚ)) (header_index : Option ℤ) (info : BurstInfo) :
    Except Raised (String × ByteArray) := do
  let record ← captureRecord bits soft header_index info
  let topic := match topic with
    | some t => if t = "" then base ++ "/rx/" ++ info.receiver else t
    | none => base ++ "/rx/" ++ info.receiver
  return (topic, (dumps (.object record)).toByteArray)

end InsteonRf.Mqtt
