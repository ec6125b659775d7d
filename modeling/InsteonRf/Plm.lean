import InsteonRf.Packet

/-!
# PLM frames

The frames a PowerLinc modem hands its host carry the fields of an RF packet in
another order, without the packet CRC. Both directions live here, and the key by
which two copies of one message are recognised.
-/
namespace InsteonRf

def plmStx : Byte := 0x02#8
def inpStandard : Byte := 0x50#8
def inpExtended : Byte := 0x51#8
def stdFrameLen : ℕ := 11
def extFrameLen : ℕ := 25
def extPlmDataLen : ℕ := 14

abbrev PlmFormatError := String

def hexByte (b : Byte) : String :=
  "0x" ++ String.ofList [Nat.digitChar (b.toNat / 16), Nat.digitChar (b.toNat % 16)]

def frameLens (code : Byte) : Option ℕ :=
  if code = inpStandard then some stdFrameLen
  else if code = inpExtended then some extFrameLen
  else none

/-- What `to_plm_bytes` insists on before it converts a packet. -/
def validatePlm (p : Packet) : Except PlmFormatError Unit :=
  if p.index_ok = some false then
    .error "frame-index counters were rejected; these bytes are not a packet"
  else if ¬ p.hopsOk then
    .error ("impossible hop fields (hops_left " ++ toString p.hopsLeft ++ " > max_hops " ++
      toString p.maxHops ++ "); these bytes are not a packet")
  else if p.crcOk = some false then
    .error ("packet CRC mismatch (got " ++ hexByte (p.crc.getD 0) ++ ", want " ++
      hexByte (p.calcCrc.getD 0) ++ ")")
  else if p.crcOk = none then .error "packet CRC byte is missing"
  else .ok ()

/-- The frame a modem would have produced for this packet. -/
def toPlmBytes (p : Packet) (validate : Bool) : Except PlmFormatError (List Byte) := do
  let extended := p.extended
  let need := (if extended then extCrcIndex else stdCrcIndex) + 1
  if p.data.length < need then
    throw ((if extended then "extended" else "standard") ++ " packet needs " ++ toString need ++
      " bytes, got " ++ toString p.data.length)
  if validate then validatePlm p
  let byte := fun i => p.data.getD i 0
  let slot1 := (Address.fromWire (byte 1) (byte 2) (byte 3)).bytes
  let slot2 := (Address.fromWire (byte 4) (byte 5) (byte 6)).bytes
  -- A group broadcast leads with the sender, everything else with the destination.
  let (from3, to3) := if p.isGroupBroadcast then (slot1, slot2) else (slot2, slot1)
  let code := if extended then inpExtended else inpStandard
  let frame := [plmStx, code] ++ from3 ++ to3 ++ [p.flagsByte, byte 7, byte 8] ++
    (if extended then (p.data.take (extDataCrcIndex + 1)).drop 9 else [])
  let expect := (frameLens code).getD 0
  if frame.length ≠ expect then
    throw ("built a " ++ toString frame.length ++ "-byte frame, expected " ++ toString expect)
  return frame

def pad (length : ℕ) (extended : Bool) : List Byte :=
  if extended then List.replicate (extLen - length) 0xAA#8
  else if length < stdLen then List.replicate (stdLen - length - 1) 0x00#8 ++ [0xAA#8] else []

/-- The RF bytes of an inbound frame: addresses in wire order and the slots swapped
back, the packet CRC recomputed, the pad regenerated. -/
def plmWireData (raw : List Byte) (extended : Bool) : List Byte :=
  let byte := fun i => raw.getD i 0
  let flags := byte 8
  let fromWire := (Address.ofBytes (byte 2) (byte 3) (byte 4)).wire
  let toWire := (Address.ofBytes (byte 5) (byte 6) (byte 7)).wire
  let slots :=
    if flags &&& (flagBcast ||| flagGroup) = flagBcast ||| flagGroup then fromWire ++ toWire
    else toWire ++ fromWire
  let data := [flags] ++ slots ++ [byte 9, byte 10] ++
    (if extended then (raw.drop 11).take extPlmDataLen else [])
  let data := data ++ [pktCrc data]
  data ++ pad data.length extended

theorem plmWireData_ne (raw : List Byte) (extended : Bool) : plmWireData raw extended ≠ [] := by
  simp [plmWireData]

def fromPlmBytes (raw : List Byte) : Except PlmFormatError Packet := do
  if raw.length < 2 then throw "frame is too short to have a message code"
  let byte := fun i => raw.getD i 0
  if byte 0 ≠ plmStx then throw ("frame does not start with " ++ hexByte plmStx)
  let code := byte 1
  match frameLens code with
  | none => throw ("message code " ++ hexByte code ++ " is not an inbound Insteon message")
  | some len =>
      if raw.length < len then
        throw (hexByte code ++ " frame needs " ++ toString len ++ " bytes, got " ++ toString raw.length)
      let extended := decide (code = inpExtended)
      if isExtended (byte 8) ≠ extended then
        throw ("message code " ++ hexByte code ++ " disagrees with the extended bit in flags " ++
          hexByte (byte 8))
      return { data := plmWireData raw extended, data_ne := plmWireData_ne raw extended }

/-- The identity of a message: its bytes before the CRC. -/
abbrev Key := List Byte

/-- `data[0] &= ~0x0C`: hops-left masked out. -/
def maskHopsLeft : List Byte → List Byte
  | [] => []
  | flags :: rest => (flags &&& ~~~0x0C#8) :: rest

/-- Hop-insensitive identity of a message, for suppressing duplicates. -/
def messageKey (p : Packet) : Key :=
  maskHopsLeft (if p.crcIndex < p.data.length then p.data.take p.crcIndex else p.data)

end InsteonRf
