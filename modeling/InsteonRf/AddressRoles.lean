import InsteonRf.PlmCodec
import InsteonRf.Inject
import InsteonRf.Context

/-!
# Who sent a packet

A group broadcast leads with its sender, every other message with its destination. The
readers of a packet tell the two apart by the broadcast and group flags, which the NAK of a
group cleanup has as well.
-/
namespace InsteonRf

namespace Packet

def slot1 (p : Packet) : Address :=
  Address.fromWire (p.data.getD 1 0) (p.data.getD 2 0) (p.data.getD 3 0)

def slot2 (p : Packet) : Address :=
  Address.fromWire (p.data.getD 4 0) (p.data.getD 5 0) (p.data.getD 6 0)

/-- Where the message type puts the sender. -/
def senderSlot (p : Packet) : Address :=
  if p.msgType = .groupBroadcast then p.slot1 else p.slot2

theorem isGroupBroadcast_iff (p : Packet) :
    p.isGroupBroadcast = true ↔ p.msgType = .groupBroadcast ∨ p.msgType = .groupCleanupNak := by
  have hflags : ∀ f : Byte, (f &&& flagBcast != 0 && f &&& flagGroup != 0) = true ↔
      MsgType.ofFlags f = .groupBroadcast ∨ MsgType.ofFlags f = .groupCleanupNak := by
    decide
  exact hflags p.flagsByte

theorem isGroupBroadcast_eq {p : Packet} (h : p.msgType ≠ .groupCleanupNak) :
    p.isGroupBroadcast = decide (p.msgType = .groupBroadcast) := by
  rw [Bool.eq_iff_iff, isGroupBroadcast_iff, decide_eq_true_iff]
  exact or_iff_left h

theorem exists_slots {p : Packet} (h : 7 ≤ p.data.length) :
    ∃ f a₁ a₂ a₃ b₁ b₂ b₃ tail, p.data = f :: a₁ :: a₂ :: a₃ :: b₁ :: b₂ :: b₃ :: tail := by
  match hdata : p.data, h with
  | f :: a₁ :: a₂ :: a₃ :: b₁ :: b₂ :: b₃ :: tail, _ =>
      exact ⟨f, a₁, a₂, a₃, b₁, b₂, b₃, tail, rfl⟩

end Packet

/-- Every reader of the packet takes the sender from where its type puts it. -/
structure RolesOk (p : Packet) : Prop where
  toAddr : p.toAddr = some p.slot1
  fromAddr : p.fromAddr = if p.msgType = .groupBroadcast then none else some p.slot2
  sender : senderOf p = some p.senderSlot
  group : p.group.isSome = true ↔ p.msgType = .groupBroadcast
  frame : ∀ validate frame, toPlmBytes p validate = .ok frame →
    (frame.drop 2).take 3 = p.senderSlot.bytes ∧
      ∃ q, fromPlmBytes frame = .ok q ∧ q.msgType = p.msgType ∧ q.senderSlot = p.senderSlot
  reply : p.ack = true → p.msgType ≠ .groupBroadcast → ∀ (t : CommandTracker) (clock : Time) (c : Byte),
    p.cmd1 = some c → t.observe p clock = (t.expire (p.timestamp.getD clock)).answer p
      ((t.expire (p.timestamp.getD clock)).queries.get (p.slot1.str, p.slot2.str, c))

theorem slots_of_take {p q : Packet} (h : q.data.take p.crcIndex = p.data.take p.crcIndex) :
    q.msgType = p.msgType ∧ q.slot1 = p.slot1 ∧ q.slot2 = p.slot2 := by
  have hbyte : ∀ i < 9, q.data.getD i 0 = p.data.getD i 0 := by
    intro i hi
    have hin : i < p.crcIndex := by
      unfold Packet.crcIndex
      split_ifs
      · exact hi.trans (by decide)
      · exact hi
    have hget := congrArg (·[i]?) h
    simp only [List.getElem?_take, hin, if_true] at hget
    rw [List.getD_eq_getElem?_getD, List.getD_eq_getElem?_getD, hget]
  refine ⟨?_, ?_, ?_⟩
  · unfold Packet.msgType Packet.flagsByte
    rw [firstByte_eq, firstByte_eq, hbyte 0 (by decide)]
  · unfold Packet.slot1
    rw [hbyte 1 (by decide), hbyte 2 (by decide), hbyte 3 (by decide)]
  · unfold Packet.slot2
    rw [hbyte 4 (by decide), hbyte 5 (by decide), hbyte 6 (by decide)]

section Roles
variable {p : Packet} (hlen : 7 ≤ p.data.length)
include hlen

theorem toAddr_eq : p.toAddr = some p.slot1 := by
  obtain ⟨f, a₁, a₂, a₃, b₁, b₂, b₃, tail, hdata⟩ := Packet.exists_slots hlen
  simp [Packet.toAddr, Packet.slot1, hdata]

theorem fromAddr_eq : p.fromAddr = if p.isGroupBroadcast then none else some p.slot2 := by
  obtain ⟨f, a₁, a₂, a₃, b₁, b₂, b₃, tail, hdata⟩ := Packet.exists_slots hlen
  simp [Packet.fromAddr, Packet.slot2, hdata]

theorem isSome_group : p.group.isSome = p.isGroupBroadcast := by
  obtain ⟨f, a₁, a₂, a₃, b₁, b₂, b₃, tail, hdata⟩ := Packet.exists_slots hlen
  rw [Packet.group, hdata]
  cases p.isGroupBroadcast <;> rfl

end Roles

/-- The frame of a packet leads with the address that its flags say it is from. -/
theorem from_of_toPlmBytes {p : Packet} {validate : Bool} {frame : List Byte}
    (h : toPlmBytes p validate = .ok frame) :
    (frame.drop 2).take 3 = (if p.isGroupBroadcast then p.slot1 else p.slot2).bytes := by
  obtain ⟨f, a₁, a₂, a₃, b₁, b₂, b₃, c₁, c₂, tail, hdata, -, rfl⟩ := coveredFrame_of_toPlmBytes h
  have hgroup : p.isGroupBroadcast = (f &&& flagBcast != 0 && f &&& flagGroup != 0) := by
    simp [Packet.isGroupBroadcast, Packet.bcast, Packet.groupMsg, Packet.flagsByte, firstByte, hdata]
  rw [coveredFrame, swapSlots, ← hgroup]
  cases p.isGroupBroadcast with
  | true => simp [Packet.slot1, hdata, Address.fromWire]
  | false => simp [Packet.slot2, hdata, Address.fromWire]

/-- Every reader takes the sender from the slot of its type, unless the packet is the NAK of a
group cleanup. -/
theorem rolesOk_iff {p : Packet} (hlen : 7 ≤ p.data.length) :
    RolesOk p ↔ p.msgType ≠ .groupCleanupNak := by
  constructor
  · intro h htype
    have hgroup : p.group.isSome = true := by
      rw [isSome_group hlen, Packet.isGroupBroadcast_iff]
      exact .inr htype
    have hbroadcast := h.group.mp hgroup
    rw [htype] at hbroadcast
    cases hbroadcast
  · intro htype
    have hflags := Packet.isGroupBroadcast_eq htype
    have hto := toAddr_eq hlen
    have hfrom : p.fromAddr = if p.msgType = .groupBroadcast then none else some p.slot2 := by
      simpa [hflags] using fromAddr_eq hlen
    refine ⟨hto, hfrom, ?_, ?_, ?_, ?_⟩
    · rw [senderOf, hto, hfrom, hflags, Packet.senderSlot]
      by_cases hkind : p.msgType = .groupBroadcast
      · simp [hkind]
      · simp [hkind]
    · rw [isSome_group hlen, hflags, decide_eq_true_iff]
    · intro validate frame hframe
      obtain ⟨q, hq, htake, -⟩ := fromPlmBytes_toPlmBytes hframe
      obtain ⟨hsame, hslot1, hslot2⟩ := slots_of_take htake
      refine ⟨?_, q, hq, hsame, ?_⟩
      · rw [from_of_toPlmBytes hframe, hflags, Packet.senderSlot]
        simp only [decide_eq_true_iff]
      · rw [Packet.senderSlot, Packet.senderSlot, hsame, hslot1, hslot2]
    · intro hack hother t clock c hcmd
      rw [if_neg hother] at hfrom
      exact CommandTracker.observe_reply hack hto hfrom hcmd t clock

/-- The NAK of a group cleanup, from 2B.93.07 to 16.3F.E5. -/
def cleanupNak : Packet :=
  Packet.ofBytes 0xEF#8 [0xE5#8, 0x3F#8, 0x16#8, 0x07#8, 0x93#8, 0x2B#8, 0x11#8, 0x01#8]

/-- It is taken for a broadcast to group 7 from the device it was sent to. -/
theorem cleanupNak_blames :
    cleanupNak.msgType = .groupCleanupNak ∧
      (senderOf cleanupNak).map Address.str = some "16.3F.E5" ∧
      cleanupNak.group = some 0x07#8 ∧
      ¬ ∀ p : Packet, 7 ≤ p.data.length → RolesOk p := by
  refine ⟨by decide, by decide, by decide, ?_⟩
  intro hall
  have hgroup := (hall cleanupNak (by decide)).group.mp (by decide)
  exact absurd hgroup (by decide)

def directAckPacket : Packet :=
  Packet.ofBytes 0x2B#8 [0xE5#8, 0x3F#8, 0x16#8, 0x07#8, 0x93#8, 0x2B#8, 0x11#8, 0xFF#8, 0x00#8]

theorem rolesOk_directAck : RolesOk directAckPacket ∧
    (senderOf directAckPacket).map Address.str = some "2B.93.07" :=
  ⟨(rolesOk_iff (by decide)).mpr (by decide), by decide⟩

end InsteonRf
