import InsteonRf.Framing
import InsteonRf.Lib.Base64
import InsteonRf.Lib.HexText
import InsteonRf.Lib.OrderedDict
import InsteonRf.Lib.Rounding

/-!
# Captures over MQTT

A receiver publishes the symbols behind the start header as base64 in a JSON object, with
its soft values and some metadata where it has them. The host puts the header back. A board
can send anything, so each field is looked at before it is used; what is not looked at is
whether an integer fits a float.
-/
namespace InsteonRf.Mqtt
open LsbBits OrderedDict Rounding

/-- A float. Finite ones are exact numbers here, as times are. -/
inductive Double where
  | finite (q : ℚ)
  | inf (negative : Bool)
  | nan
  deriving DecidableEq

inductive Raised where
  | OverflowError
  | ValueError
  deriving DecidableEq, Repr

/-- What `json.loads` returns. -/
inductive Json where
  | null
  | bool (b : Bool)
  | int (n : ℤ)
  | float (x : Double)
  | str (s : String)
  | array (l : List Json)
  | object (members : List (String × Json))

/-- The least integer that is too great for a float: it is halfway from the greatest one to
2^1024, and ties round to even. -/
@[irreducible] def doubleLimit : ℤ := 2 ^ 1024 - 2 ^ 970

def floatOf (n : ℤ) : Except Raised Double :=
  if |n| < doubleLimit then .ok (.finite n) else .error .OverflowError

namespace Json

/-- `isinstance(v, int)`, and the integer; a bool is one. -/
def asInt : Json → Option ℤ
  | bool b => some (if b then 1 else 0)
  | int n => some n
  | _ => none

/-- `float(v) if isinstance(v, (int, float)) else None` -/
def toFloat (v : Json) : Except Raised (Option Double) :=
  match v with
  | float x => .ok (some x)
  | v =>
      match v.asInt with
      | some n => (floatOf n).map some
      | none => .ok none

/-- `v > bound` of a number, false of anything else. -/
def exceeds (v : Json) (bound : ℤ) : Bool :=
  match v with
  | float (.finite q) => decide ((bound : ℚ) < q)
  | float (.inf negative) => !negative
  | float .nan => false
  | v =>
      match v.asInt with
      | some n => decide (bound < n)
      | none => false

def field (members : List (String × Json)) (key : String) : Json := (lookup members key).getD null

end Json

def maxCaptureBytes : ℕ := 4096

def softScale : ℤ := 127

def bitsFromBytes (data : List Byte) : Bits := data.flatMap (fun b => msbBits 8 b.toNat)

def padCount (n : ℕ) : ℕ := (8 - n % 8) % 8

def bytesFromBits (bits : Bits) : List Byte :=
  let padded := bits ++ List.replicate (padCount bits.length) false
  (List.range (padded.length / 8)).map (fun i =>
    BitVec.ofNat 8 (ofMsbBits ((padded.drop (8 * i)).take 8)))

/-- One soft value as a signed byte. -/
def quantise (x : ℚ) : ℤ := max (-softScale) (min softScale (rint (x * softScale)))

def softToBytes (soft : List ℚ) : List Byte := soft.map (fun x => BitVec.ofInt 8 (quantise x))

def softFromBytes (data : List Byte) : List ℚ := data.map (fun b => b.toInt / softScale)

def hardSoft (bits : Bits) : List ℚ := bits.map (fun b => if b then 1 else -1)

/-- The low 16 bits of a sync word. -/
def syncHeader (sync_word : Option ℤ) : Bits :=
  match sync_word with
  | some w => msbBits 16 (w % 2 ^ 16).toNat
  | none => startHeaderInv

def startsWithHeader (bits : Bits) : Bool :=
  startHeader.isPrefixOf bits || startHeaderInv.isPrefixOf bits

def withSyncHeader (bits : Bits) (sync_word : Option ℤ) : Bits :=
  if startsWithHeader bits then bits else syncHeader sync_word ++ bits

structure Capture where
  receiver : String
  bits : Bits
  timestamp : Time
  rssi_dbm : Option Double
  seq : Option ℤ
  micros : Option ℤ
  sync_word : Option ℤ
  soft : Option (List ℚ)
  snr_db : Option Double

/-- `topic.rsplit("/", 1)[-1]` -/
def lastSegment (topic : String) : String :=
  String.ofList (topic.toList.reverse.takeWhile (· ≠ '/')).reverse

def receiverName (name : Json) (topic : String) : String :=
  match name with
  | .str s => if s = "" then lastSegment topic else s
  | _ => lastSegment topic

/-- The board's time where it has one and is less than an hour off, else the time of arrival. -/
def captureTime (ts : Json) (now : Time) : Except Raised Time := do
  if ts.exceeds 1000000000000 then
    match ← ts.toFloat with
    | some (.finite q) => return if |q / 1000 - now| < 3600 then q / 1000 else now
    | _ => return now
  return now

section Receiving
-- `base64.b64decode(validate=True)`; Python's versions differ on surplus padding
variable (b64decode : String → Option (List Byte)) (loads : String → Option Json)
  (decimal : Char → Option ℕ)

def syncWord (sw : Json) : Option ℤ :=
  match sw with
  | .str s => HexText.int16 decimal s
  | sw => sw.asInt

/-- The soft values, when there are as many as symbols in the FIFO bytes. -/
def captureSoft (blob : Json) (fifo bits : Bits) : Option (List ℚ) :=
  match blob with
  | .str s =>
      let raw := (b64decode s).getD []
      if raw.length = fifo.length then
        some (hardSoft (bits.take (bits.length - fifo.length)) ++ softFromBytes raw)
      else none
  | _ => none

/-- The JSON object of a payload and the bytes in it, unless the payload is refused. -/
def accepted (payload : ByteArray) : Option (List (String × Json) × List Byte) := do
  let text ← payload.utf8Decode?
  match ← loads (String.ofList text.toList) with
  | .object members =>
      match Json.field members "b" with
      | .str blob =>
          let raw ← b64decode blob
          if raw = [] ∨ maxCaptureBytes < raw.length then none
          else return (members, raw)
      | _ => none
  | _ => none

def fromPayload (topic : String) (payload : ByteArray) (now : Time) :
    Except Raised (Option Capture) :=
  match accepted b64decode loads payload with
  | none => .ok none
  | some (members, raw) => do
      let timestamp ← captureTime (Json.field members "t") now
      let sync_word := syncWord decimal (Json.field members "sw")
      let fifo := bitsFromBytes raw
      let bits := withSyncHeader fifo sync_word
      let rssi_dbm ← (Json.field members "rssi").toFloat
      let snr_db ← (Json.field members "snr").toFloat
      return some
        { receiver := receiverName (Json.field members "n") topic
          bits, timestamp, rssi_dbm
          seq := (Json.field members "seq").asInt
          micros := (Json.field members "us").asInt
          sync_word
          soft := captureSoft b64decode (Json.field members "s") fifo bits
          snr_db }

end Receiving

def Answers (r : Except Raised (Option Capture)) : Prop :=
  ∃ answer, r = .ok answer ∧
    ∀ c ∈ answer, c.bits ≠ [] ∧ ∀ v ∈ c.soft, v.length = c.bits.length

/-- An integer beyond the floats. -/
def Oversized (v : Json) : Prop := ∃ n, v = .int n ∧ doubleLimit ≤ |n|

theorem trillion_lt_doubleLimit : 1000000000000 < doubleLimit := by decide +kernel

theorem lt_doubleLimit {n : ℤ} (h : n ≤ 1000000000000) : n < doubleLimit :=
  lt_of_le_of_lt h trillion_lt_doubleLimit

theorem floatOf_ok_iff (n : ℤ) : (∃ x, floatOf n = .ok x) ↔ |n| < doubleLimit := by
  rw [floatOf]
  split_ifs with h
  · exact iff_of_true ⟨_, rfl⟩ h
  · exact iff_of_false (fun ⟨x, hx⟩ => by cases hx) h

theorem toFloat_ok_iff (v : Json) : (∃ x, v.toFloat = .ok x) ↔ ¬ Oversized v := by
  have hother : (∀ n, v ≠ .int n) → ¬ Oversized v := fun hne ⟨n, hn, _⟩ => hne n hn
  cases v with
  | int n =>
      have hiff : Oversized (.int n) ↔ doubleLimit ≤ |n| :=
        ⟨fun ⟨_, hm, hle⟩ => by cases hm; exact hle, fun hle => ⟨n, rfl, hle⟩⟩
      rw [hiff, not_le, ← floatOf_ok_iff]
      change (∃ x, (floatOf n).map some = .ok x) ↔ _
      cases floatOf n with
      | error e => exact iff_of_false (fun ⟨x, hx⟩ => by cases hx) (fun ⟨x, hx⟩ => by cases hx)
      | ok x => exact iff_of_true ⟨_, rfl⟩ ⟨_, rfl⟩
  | bool b =>
      refine iff_of_true ?_ (hother fun n hn => by cases hn)
      have hfits : |(if b then 1 else 0 : ℤ)| < doubleLimit :=
        lt_doubleLimit (by cases b <;> decide)
      change ∃ x, (floatOf _).map some = .ok x
      rw [floatOf, if_pos hfits]
      exact ⟨_, rfl⟩
  | null => exact iff_of_true ⟨_, rfl⟩ (hother fun n hn => by cases hn)
  | float x => exact iff_of_true ⟨_, rfl⟩ (hother fun n hn => by cases hn)
  | str s => exact iff_of_true ⟨_, rfl⟩ (hother fun n hn => by cases hn)
  | array l => exact iff_of_true ⟨_, rfl⟩ (hother fun n hn => by cases hn)
  | object members => exact iff_of_true ⟨_, rfl⟩ (hother fun n hn => by cases hn)

/-- Of the times only a positive integer is converted. -/
theorem captureTime_ok_iff (ts : Json) (now : Time) :
    (∃ t, captureTime ts now = .ok t) ↔ ¬ ∃ n, ts = .int n ∧ doubleLimit ≤ n := by
  rw [captureTime]
  cases hexceeds : ts.exceeds 1000000000000 with
  | false =>
      refine iff_of_true ⟨_, rfl⟩ ?_
      rintro ⟨n, rfl, hle⟩
      exact absurd (lt_doubleLimit (not_lt.mp (of_decide_eq_false hexceeds))) (not_lt.mpr hle)
  | true =>
      have hiff : (∃ n, ts = .int n ∧ doubleLimit ≤ n) ↔ Oversized ts := by
        constructor
        · rintro ⟨n, hn, hle⟩
          exact ⟨n, hn, hle.trans (le_abs_self n)⟩
        · rintro ⟨n, rfl, hle⟩
          have hpos : (1000000000000 : ℤ) < n := of_decide_eq_true hexceeds
          rw [abs_of_pos (by omega)] at hle
          exact ⟨n, rfl, hle⟩
      rw [hiff, ← toFloat_ok_iff]
      cases ts.toFloat with
      | error e => exact iff_of_false (fun ⟨x, hx⟩ => by cases hx) (fun ⟨x, hx⟩ => by cases hx)
      | ok x =>
          refine iff_of_true ?_ ⟨x, rfl⟩
          rcases x with _ | ⟨q | negative | _⟩
          · exact ⟨now, rfl⟩
          · exact ⟨_, rfl⟩
          · exact ⟨now, rfl⟩
          · exact ⟨now, rfl⟩

@[simp] theorem length_bitsFromBytes (data : List Byte) :
    (bitsFromBytes data).length = 8 * data.length := by
  simp [bitsFromBytes, List.length_flatMap, Nat.mul_comm]

theorem suffix_withSyncHeader (bits : Bits) (sync_word : Option ℤ) :
    bits <:+ withSyncHeader bits sync_word := by
  rw [withSyncHeader]
  split_ifs
  · exact List.suffix_rfl
  · exact List.suffix_append _ _

theorem length_captureSoft {b64decode : String → Option (List Byte)} {blob : Json}
    {fifo bits : Bits} {v : List ℚ} (h : captureSoft b64decode blob fifo bits = some v) (hle : fifo.length ≤ bits.length) :
    v.length = bits.length := by
  cases blob with
  | str s =>
      rw [captureSoft] at h
      split_ifs at h with hlen
      rw [← Option.some.inj h]
      simp only [hardSoft, softFromBytes, List.length_append, List.length_map, List.length_take,
        hlen]
      omega
  | null => cases h
  | bool b => cases h
  | int n => cases h
  | float x => cases h
  | array l => cases h
  | object members => cases h

section Answers
variable (b64decode : String → Option (List Byte)) (loads : String → Option Json)
  (decimal : Char → Option ℕ)

theorem accepted_spec {payload : ByteArray} {members : List (String × Json)} {raw : List Byte}
    (h : accepted b64decode loads payload = some (members, raw)) :
    raw ≠ [] ∧ raw.length ≤ maxCaptureBytes := by
  rw [accepted] at h
  obtain ⟨text, -, h⟩ := Option.bind_eq_some_iff.mp h
  obtain ⟨v, -, h⟩ := Option.bind_eq_some_iff.mp h
  cases v with
  | object fields =>
      simp only at h
      cases hb : Json.field fields "b" with
      | str blob =>
          rw [hb] at h
          obtain ⟨bytes, -, h⟩ := Option.bind_eq_some_iff.mp h
          split_ifs at h with hbad
          cases h
          rw [not_or, not_lt] at hbad
          exact hbad
      | null => rw [hb] at h; cases h
      | bool b => rw [hb] at h; cases h
      | int n => rw [hb] at h; cases h
      | float x => rw [hb] at h; cases h
      | array l => rw [hb] at h; cases h
      | object fields => rw [hb] at h; cases h
  | null => cases h
  | bool b => cases h
  | int n => cases h
  | float x => cases h
  | str s => cases h
  | array l => cases h

theorem accepted_of_record {text blob : String} {members : List (String × Json)}
    {raw : List Byte} (hloads : loads text = some (.object members))
    (hb : Json.field members "b" = .str blob) (hraw : b64decode blob = some raw)
    (hne : raw ≠ []) (hsize : raw.length ≤ maxCaptureBytes) :
    accepted b64decode loads text.toByteArray = some (members, raw) := by
  have htext : text.toByteArray.utf8Decode? = some text.toList.toArray := by
    rw [← String.utf8Encode_toList, List.utf8Decode?_utf8Encode]
  have hfits : ¬ (raw = [] ∨ maxCaptureBytes < raw.length) := by
    rw [not_or, not_lt]
    exact ⟨hne, hsize⟩
  rw [accepted, htext]
  simp only [Option.bind_eq_bind, Option.bind_some, String.ofList_toList, hloads, hb, hraw,
    if_neg hfits]
  rfl

/-- The numbers of a capture that are converted without a look at their size fit a float. -/
structure Fits (members : List (String × Json)) : Prop where
  time : ¬ ∃ n, Json.field members "t" = .int n ∧ doubleLimit ≤ n
  rssi : ¬ Oversized (Json.field members "rssi")
  snr : ¬ Oversized (Json.field members "snr")

/-- What the host makes of the bytes of a capture, whatever the numbers beside them. -/
theorem fromPayload_of_fits (topic : String) {payload : ByteArray} (now : Time)
    {members : List (String × Json)} {raw : List Byte}
    (h : accepted b64decode loads payload = some (members, raw)) (hfits : Fits members) :
    ∃ c, fromPayload b64decode loads decimal topic payload now = .ok (some c) ∧
      c.bits = withSyncHeader (bitsFromBytes raw)
        (syncWord decimal (Json.field members "sw")) ∧
      c.soft = captureSoft b64decode (Json.field members "s") (bitsFromBytes raw) c.bits := by
  obtain ⟨t, ht⟩ := (captureTime_ok_iff _ now).mpr hfits.time
  obtain ⟨rssi, hrssi⟩ := (toFloat_ok_iff _).mpr hfits.rssi
  obtain ⟨snr, hsnr⟩ := (toFloat_ok_iff _).mpr hfits.snr
  have hok : ∃ c, fromPayload b64decode loads decimal topic payload now = .ok (some c) := by
    rw [fromPayload, h]
    simp only [ht, hrssi, hsnr]
    exact ⟨_, rfl⟩
  obtain ⟨c, hc⟩ := hok
  refine ⟨c, hc, ?_⟩
  rw [fromPayload, h] at hc
  simp only [ht, hrssi, hsnr] at hc
  cases hc
  exact ⟨rfl, rfl⟩

theorem fits_of_fromPayload {topic : String} {payload : ByteArray} {now : Time}
    {members : List (String × Json)} {raw : List Byte} {answer : Option Capture}
    (h : accepted b64decode loads payload = some (members, raw))
    (hok : fromPayload b64decode loads decimal topic payload now = .ok answer) : Fits members := by
  rw [fromPayload, h] at hok
  obtain ⟨t, ht, hok⟩ := bind_eq_ok hok
  obtain ⟨rssi, hrssi, hok⟩ := bind_eq_ok hok
  obtain ⟨snr, hsnr, -⟩ := bind_eq_ok hok
  exact ⟨(captureTime_ok_iff _ now).mp ⟨t, ht⟩, (toFloat_ok_iff _).mp ⟨rssi, hrssi⟩,
    (toFloat_ok_iff _).mp ⟨snr, hsnr⟩⟩

/-- A payload is answered as it should be unless it is a capture with a number beyond the
floats in it; that raises. -/
theorem fromPayload_answers_iff (topic : String) (payload : ByteArray) (now : Time) :
    Answers (fromPayload b64decode loads decimal topic payload now) ↔
      ∀ members raw, accepted b64decode loads payload = some (members, raw) → Fits members := by
  constructor
  · rintro ⟨answer, hok, -⟩ members raw h
    exact fits_of_fromPayload b64decode loads decimal h hok
  · intro hfits
    cases h : accepted b64decode loads payload with
    | none =>
        refine ⟨none, by rw [fromPayload, h], ?_⟩
        intro c hc
        cases hc
    | some found =>
        obtain ⟨members, raw⟩ := found
        obtain ⟨hne, -⟩ := accepted_spec b64decode loads h
        obtain ⟨c, hok, hbits, hsoft⟩ :=
          fromPayload_of_fits b64decode loads decimal topic now h (hfits members raw h)
        refine ⟨some c, hok, ?_⟩
        rintro d ⟨⟩
        have hle : (bitsFromBytes raw).length ≤ c.bits.length := by
          rw [hbits]
          exact (suffix_withSyncHeader _ _).length_le
        have hpos : 0 < (bitsFromBytes raw).length := by
          rw [length_bitsFromBytes]
          have hraw := List.length_pos_of_ne_nil hne
          omega
        refine ⟨List.ne_nil_of_length_pos (hpos.trans_le hle), ?_⟩
        intro v hv
        exact length_captureSoft (hsoft.symm.trans hv) hle

end Answers

/-- A board that publishes one zero byte and 2^1024 as its signal strength. -/
def wedgedText : String :=
  "\x7b\"b\":\"AA==\",\"rssi\":" ++ toString (2 ^ 1024) ++ "\x7d"

def wedgedRecord : Json := .object [("b", .str "AA=="), ("rssi", .int (2 ^ 1024))]

def wedgedLoads (text : String) : Option Json :=
  if text = wedgedText then some wedgedRecord else none

theorem accepted_wedged : accepted Base64.decodeText wedgedLoads wedgedText.toByteArray =
    some ([("b", .str "AA=="), ("rssi", .int (2 ^ 1024))], [0#8]) := by
  have hb : Json.field [("b", .str "AA=="), ("rssi", .int (2 ^ 1024))] "b" = .str "AA==" := rfl
  refine accepted_of_record Base64.decodeText wedgedLoads ?_ hb (by decide) (by decide) (by decide)
  rw [wedgedLoads, if_pos rfl, wedgedRecord]

/-- One integer field brings the receiver down. -/
theorem fromPayload_wedged : ¬ Answers (fromPayload Base64.decodeText wedgedLoads (fun _ => none)
    "insteon-rf/rx/up" wedgedText.toByteArray 0) := by
  rintro ⟨answer, hok, -⟩
  have hfits := fits_of_fromPayload Base64.decodeText wedgedLoads _ accepted_wedged hok
  exact hfits.rssi ⟨2 ^ 1024, rfl, by decide +kernel⟩

end InsteonRf.Mqtt
