import InsteonRf.FramingRoundTrip

/-!
# Whole messages

What a device sends: a packet of full length whose checks pass. Its last counter is 0, so
the decoder reads exactly its bytes whatever follows it.
-/
namespace InsteonRf
open LsbBits StringSearch

namespace Packet

/-- A packet of full length with matching checksums and possible hop fields. -/
structure Valid (p : Packet) : Prop where
  full : p.data.length = fullLen p.extended
  crc : p.crcOk = some true
  hops : p.hopsOk = true
  extCrc : p.extended = true → p.extCrcOk = some true

theorem Valid.fits {p : Packet} (h : p.Valid) : Fits p := h.full.le

/-- The symbols from the start header to the last frame, in normal polarity. -/
def messageBits (p : Packet) : Bits :=
  ((onAir p).drop 15).take (markerOffset + frameBits * p.data.length)

theorem Valid.of_data {p q : Packet} (h : p.Valid) (hdata : q.data = p.data) : q.Valid := by
  have hext : q.extended = p.extended := by simp only [extended, flagsByte, hdata]
  have hreceived : q.crc = p.crc := by rw [Packet.crc, Packet.crc, crcIndex, crcIndex, hext, hdata]
  have hcalc : q.calcCrc = p.calcCrc := by
    rw [calcCrc, calcCrc, crcIndex, crcIndex, hext, hdata]
  have hcrc : q.crcOk = p.crcOk := by rw [crcOk, crcOk, hreceived, hcalc]
  have hflags : q.flagsByte = p.flagsByte := by rw [flagsByte, flagsByte, hdata]
  have hhops : q.hopsOk = p.hopsOk := by
    rw [hopsOk, hopsOk, hopsLeft, hopsLeft, maxHops, maxHops, hflags]
  have hextCrc : q.extCrcOk = p.extCrcOk := by rw [extCrcOk, extCrcOk, hext, hdata]
  constructor
  · rw [hdata, hext, h.full]
  · rw [hcrc, h.crc]
  · rw [hhops, h.hops]
  · rw [hext, hextCrc]
    exact h.extCrc

variable {p : Packet}

theorem messageBits_eq (h : Fits p) :
    p.messageBits = (manchesterEncode preamble).drop 15 ++ canonicalFrames p.extended p.data :=
  slice_onAir h

theorem length_messageBits (h : Fits p) :
    p.messageBits.length = markerOffset + frameBits * p.data.length := by
  rw [messageBits_eq h, List.length_append, length_canonicalFrames h]
  rfl

theorem four_le_length (h : p.Valid) : 4 ≤ p.data.length := by
  rw [h.full, fullLen]
  split_ifs <;> decide

theorem header_messageBits (h : p.Valid) (rest : Bits) :
    OccursAt startHeader (p.messageBits ++ rest) 0 := by
  rw [messageBits_eq h.fits, canonicalFrames]
  cases hdata : p.data with
  | nil => exact absurd hdata p.data_ne
  | cons b data =>
      rw [expectedIndexes, List.zipWith_cons_cons, List.flatten_cons, OccursAt]
      exact ⟨_, rfl⟩

/-- Behind its header a whole message reads back as its own bytes. -/
theorem decodeFrames_messageBits (h : p.Valid) (pre rest : Bits) :
    decodeFrames (pre ++ (p.messageBits ++ rest)) (pre.length + markerOffset) =
      (p.data, (expectedIndexes p.extended).take p.data.length) := by
  have hdrop : (pre ++ (p.messageBits ++ rest)).drop (pre.length + markerOffset) =
      canonicalFrames p.extended p.data ++ rest := by
    rw [← List.drop_drop, List.drop_left, messageBits_eq h.fits]
    simp only [List.append_assoc]
    exact List.drop_left' (by decide)
  exact decodeFrames_of_drop h.fits hdrop (Or.inl h.full)

theorem parseAt_messageBits (h : p.Valid) (ts : Option Time) (pre rest : Bits) :
    ∃ q, parseAt (pre ++ (p.messageBits ++ rest)) ts 4 pre.length = some q ∧ ReadBack p q :=
  parseAt_of_decodeFrames h.fits ts (four_le_length h) (decodeFrames_messageBits h pre rest)

end Packet

end InsteonRf
