import InsteonRf.Manchester
import Mathlib.Data.Rat.Defs
import Mathlib.Tactic

/-!
# Insteon RF packets

The wire layout is a flags byte, three bytes each for the two address slots
(low byte first), two command bytes, thirteen bytes of user data and their
checksum on extended packets only, the packet CRC, and pad bytes.
-/
namespace InsteonRf

abbrev Byte := BitVec 8

/-- Seconds; the source's floats are taken as exact numbers. -/
abbrev Time := ℚ

def flagBcast : Byte := 0x80#8
def flagGroup : Byte := 0x40#8
def flagAck : Byte := 0x20#8
def flagExt : Byte := 0x10#8

def stdLen : ℕ := 13
def extLen : ℕ := 32
def stdCrcIndex : ℕ := 9
def extCrcIndex : ℕ := 23
def extDataCrcIndex : ℕ := 22

inductive MsgType where
  | direct
  | directAck
  | groupCleanup
  | groupCleanupAck
  | broadcast
  | directNak
  | groupBroadcast
  | groupCleanupNak
  deriving DecidableEq, Repr

namespace MsgType

/-- `MsgType(flags >> 5)`. -/
def ofFlags (flags : Byte) : MsgType :=
  match (flags >>> 5).toNat with
  | 0 => direct
  | 1 => directAck
  | 2 => groupCleanup
  | 3 => groupCleanupAck
  | 4 => broadcast
  | 5 => directNak
  | 6 => groupBroadcast
  | _ => groupCleanupNak

def name : MsgType → String
  | direct => "DIRECT"
  | directAck => "DIRECT_ACK"
  | groupCleanup => "GROUP_CLEANUP"
  | groupCleanupAck => "GROUP_CLEANUP_ACK"
  | broadcast => "BROADCAST"
  | directNak => "DIRECT_NAK"
  | groupBroadcast => "GROUP_BROADCAST"
  | groupCleanupNak => "GROUP_CLEANUP_NAK"

end MsgType

def crcTable : List Byte :=
  [0x00#8, 0x30#8, 0x60#8, 0x50#8, 0xC0#8, 0xF0#8, 0xA0#8, 0x90#8,
   0x80#8, 0xB0#8, 0xE0#8, 0xD0#8, 0x40#8, 0x70#8, 0x20#8, 0x10#8]

/-- `data[0]`; every caller passes a nonempty list. -/
def firstByte (data : List Byte) : Byte := data.headD 0

def isExtended (flags : Byte) : Bool := flags &&& flagExt != 0

def crcStep (r b : Byte) : Byte :=
  let r := r ^^^ b
  r ^^^ crcTable.getD (r &&& 0x0F#8).toNat 0

/-- Packet CRC over bytes 0-8 (standard) or 0-22 (extended). -/
def pktCrc (data : List Byte) : Byte :=
  let n := if isExtended (firstByte data) then extCrcIndex else stdCrcIndex
  (data.take n).foldl crcStep 0

/-- Extended-data checksum: two's complement of the sum of bytes 7-21. -/
def extCrc (data : List Byte) : Byte := -((data.take extDataCrcIndex).drop 7).foldl (· + ·) 0

theorem or_bytes (a : ℕ) {b c : ℕ} (hb : b < 256) (hc : c < 256) :
    a <<< 16 ||| b <<< 8 ||| c = 2 ^ 16 * a + 2 ^ 8 * b + c := by
  have hinner : 2 ^ 16 * a ||| 2 ^ 8 * b = 2 ^ 16 * a + 2 ^ 8 * b :=
    (Nat.two_pow_add_eq_or_of_lt (by omega) a).symm
  have houter : 2 ^ 16 * a + 2 ^ 8 * b ||| c = 2 ^ 16 * a + 2 ^ 8 * b + c := by
    have hsplit : 2 ^ 16 * a + 2 ^ 8 * b = 2 ^ 8 * (2 ^ 8 * a + b) := by ring
    rw [hsplit]
    exact (Nat.two_pow_add_eq_or_of_lt hc _).symm
  rw [Nat.shiftLeft_eq, Nat.shiftLeft_eq, Nat.mul_comm a, Nat.mul_comm b, hinner, houter]

structure Address where
  value : BitVec 24
  deriving DecidableEq, Repr

namespace Address

def ofBytes (a b c : Byte) : Address :=
  ⟨a.setWidth 24 <<< 16 ||| b.setWidth 24 <<< 8 ||| c.setWidth 24⟩

/-- From three bytes as they stand on the wire, low byte first. -/
def fromWire (a b c : Byte) : Address := ofBytes c b a

/-- High byte first, the order the address is written in. -/
def bytes (a : Address) : List Byte :=
  [(a.value >>> 16).setWidth 8, (a.value >>> 8).setWidth 8, a.value.setWidth 8]

/-- Low byte first, the order the address goes on the air. -/
def wire (a : Address) : List Byte := a.bytes.reverse

@[simp] theorem bytes_ofBytes (a b c : Byte) : (ofBytes a b c).bytes = [a, b, c] := by
  simp only [bytes, ofBytes, List.cons.injEq, and_true]
  refine ⟨?_, ?_, ?_⟩ <;>
    (refine BitVec.eq_of_getLsbD_eq ?_; intro i hi; interval_cases i <;> simp)

theorem toNat_ofBytes (a b c : Byte) :
    (ofBytes a b c).value.toNat = 2 ^ 16 * a.toNat + 2 ^ 8 * b.toNat + c.toNat := by
  have ha := a.isLt
  have hb := b.isLt
  have hc := c.isLt
  rw [← or_bytes _ hb hc]
  simp only [ofBytes, BitVec.toNat_or, BitVec.toNat_shiftLeft, BitVec.toNat_setWidth,
    Nat.shiftLeft_eq]
  congr 2
  · omega
  · omega
  · omega

def hexDigit (n : ℕ) : Char := "0123456789ABCDEF".toList.getD n '0'

def str (a : Address) : String :=
  ".".intercalate (a.bytes.map (fun b =>
    String.ofList [hexDigit (b.toNat / 16), hexDigit (b.toNat % 16)]))

example : (ofBytes 0x2B#8 0x93#8 0x07#8).str = "2B.93.07" := by decide

end Address

theorem bind_eq_ok {α β ε : Type} {x : Except ε α} {f : α → Except ε β} {b : β}
    (h : x >>= f = .ok b) : ∃ a, x = .ok a ∧ f a = .ok b := by
  cases x with
  | error e => cases h
  | ok a => exact ⟨a, rfl, h⟩

theorem exists_nine {α : Type*} {l : List α} (h : 9 ≤ l.length) :
    ∃ f a₁ a₂ a₃ b₁ b₂ b₃ c₁ c₂ tail,
      l = f :: a₁ :: a₂ :: a₃ :: b₁ :: b₂ :: b₃ :: c₁ :: c₂ :: tail := by
  match l, h with
  | f :: a₁ :: a₂ :: a₃ :: b₁ :: b₂ :: b₃ :: c₁ :: c₂ :: tail, _ =>
      exact ⟨f, a₁, a₂, a₃, b₁, b₂, b₃, c₁, c₂, tail, rfl⟩

/-- A decoded or generated packet, in wire byte order. `index_ok` says whether
the frame-index counters ran as the protocol requires, when that was checked;
`corrected` how many bits a repair had to flip. -/
structure Packet where
  data : List Byte
  data_ne : data ≠ []
  bits : Bits := []
  timestamp : Option Time := none
  complete : Bool := true
  corrected : ℕ := 0
  snr_db : Option ℚ := none
  rssi_dbm : Option ℚ := none
  ack_of_extended : Option Bool := none
  index_ok : Option Bool := none
  deriving DecidableEq, Repr

namespace Packet

def ofBytes (flags : Byte) (rest : List Byte) : Packet where
  data := flags :: rest
  data_ne := List.cons_ne_nil flags rest

def flagsByte (p : Packet) : Byte := firstByte p.data
def extended (p : Packet) : Bool := isExtended p.flagsByte
def bcast (p : Packet) : Bool := p.flagsByte &&& flagBcast != 0
def groupMsg (p : Packet) : Bool := p.flagsByte &&& flagGroup != 0
def ack (p : Packet) : Bool := p.flagsByte &&& flagAck != 0
def maxHops (p : Packet) : ℕ := (p.flagsByte &&& 3#8).toNat
def hopsLeft (p : Packet) : ℕ := ((p.flagsByte >>> 2) &&& 3#8).toNat

/-- Whether the hop fields are ones a real transmission can carry. -/
def hopsOk (p : Packet) : Bool := decide (p.hopsLeft ≤ p.maxHops)

def msgType (p : Packet) : MsgType := MsgType.ofFlags p.flagsByte
def isGroupBroadcast (p : Packet) : Bool := p.bcast && p.groupMsg

/-- Wire slot 1: the destination, or the sender of a group broadcast. -/
def toAddr (p : Packet) : Option Address :=
  match p.data with
  | _ :: a :: b :: c :: _ => some (Address.fromWire a b c)
  | _ => none

def fromAddr (p : Packet) : Option Address :=
  if p.isGroupBroadcast then none
  else match p.data with
    | _ :: _ :: _ :: _ :: a :: b :: c :: _ => some (Address.fromWire a b c)
    | _ => none

def group (p : Packet) : Option Byte := if p.isGroupBroadcast then p.data[4]? else none

def cmd1 (p : Packet) : Option Byte := p.data[7]?

def crcIndex (p : Packet) : ℕ := if p.extended then extCrcIndex else stdCrcIndex

def crc (p : Packet) : Option Byte := p.data[p.crcIndex]?

def calcCrc (p : Packet) : Option Byte :=
  if p.crcIndex ≤ p.data.length then some (pktCrc p.data) else none

def crcOk (p : Packet) : Option Bool := p.crc.map (fun c => decide (some c = p.calcCrc))

def extCrcOk (p : Packet) : Option Bool :=
  if p.extended then p.data[extDataCrcIndex]?.map (fun c => decide (c = extCrc p.data)) else none

/-- A verified copy: its CRC matches and its hop fields are possible. -/
def verified (p : Packet) : Bool := decide (p.crcOk = some true) && p.hopsOk

theorem crcOk_of_verified {p : Packet} (h : p.verified = true) : p.crcOk = some true := by
  simpa using (Bool.and_eq_true_iff.mp h).1

end Packet

end InsteonRf
