import InsteonRf.PlmCodec
import InsteonRf.RecoverSingle

/-!
# What the CRC notices

Each step of the CRC is a bijection of the register, so a byte that differs is felt at the
end whatever follows it. One damaged byte is always noticed, and copies of a message with
different hops-left have different CRCs.
-/
namespace InsteonRf
open Recover

namespace Packet

def setByte (p : Packet) (i : ℕ) (b : Byte) : Packet :=
  { p with
    data := p.data.set i b
    data_ne := List.ne_nil_of_length_pos (by
      rw [List.length_set]
      exact List.length_pos_iff.mpr p.data_ne) }

theorem crcOk_of_get {p : Packet} {c : Byte} (h : p.data[p.crcIndex]? = some c) :
    p.crcOk = some (decide (c = pktCrc p.data)) := by
  obtain ⟨hlen, -⟩ := List.getElem?_eq_some_iff.mp h
  rw [crcOk, crc, h, calcCrc, if_pos hlen.le]
  simp

theorem get_of_crcOk {p : Packet} (h : p.crcOk = some true) :
    p.data[p.crcIndex]? = some (pktCrc p.data) := by
  cases hget : p.data[p.crcIndex]? with
  | none =>
      rw [crcOk, crc, hget] at h
      cases h
  | some c =>
      rw [crcOk_of_get hget] at h
      rw [of_decide_eq_true (Option.some.inj h)]

end Packet

theorem eq_of_pktCrc_set {data : List Byte} {i : ℕ} {b c : Byte} {extended : Bool}
    (hb : isExtended (firstByte (data.set i b)) = extended)
    (hc : isExtended (firstByte (data.set i c)) = extended) (hi : i < data.length)
    (hcovered : i < crcPlace extended) (h : pktCrc (data.set i b) = pktCrc (data.set i c)) :
    b = c := by
  have hin : i < (data.take (crcPlace extended)).length := by
    rw [List.length_take]
    exact lt_min hcovered hi
  rw [pktCrc_eq hb, pktCrc_eq hc, List.take_set, List.take_set] at h
  have hother : (data.take (crcPlace extended)).set i b =
      ((data.take (crcPlace extended)).set i c).set i b := by rw [List.set_set]
  rw [hother] at h
  have hsame := eq_of_foldl_crcStep_set (by simpa using hin) h
  rw [List.getElem?_set_self hin] at hsame
  exact (Option.some.inj hsame).symm

/-- A packet that passes the check fails it after any change of one byte up to the CRC. -/
theorem crcOk_setByte {p : Packet} (h : p.crcOk = some true) {i : ℕ} {b : Byte}
    (hi : i ≤ p.crcIndex) (hne : p.data[i]? ≠ some b)
    (hkind : (p.setByte i b).extended = p.extended) : (p.setByte i b).crcOk = some false := by
  have hget := Packet.get_of_crcOk h
  obtain ⟨hlen, -⟩ := List.getElem?_eq_some_iff.mp hget
  have hindex : (p.setByte i b).crcIndex = p.crcIndex := by
    rw [Packet.crcIndex, Packet.crcIndex, hkind]
  have hdata : (p.setByte i b).data = p.data.set i b := rfl
  rcases hi.lt_or_eq with hcovered | rfl
  · have hreceived : (p.setByte i b).data[(p.setByte i b).crcIndex]? = some (pktCrc p.data) := by
      rw [hindex, hdata, List.getElem?_set_ne (by omega), hget]
    rw [Packet.crcOk_of_get hreceived, hdata]
    congr 1
    rw [decide_eq_false_iff_not]
    intro hsame
    apply hne
    have hin : i < p.data.length := hcovered.trans hlen
    have hold : p.data.set i p.data[i] = p.data := List.set_getElem_self hin
    have hbyte : p.data[i] = b := by
      refine eq_of_pktCrc_set ?_ hkind hin hcovered ?_
      · rw [hold]
        rfl
      · rw [hold]
        exact hsame
    rw [List.getElem?_eq_getElem hin, hbyte]
  · have hreceived : (p.setByte p.crcIndex b).data[(p.setByte p.crcIndex b).crcIndex]? = some b := by
      rw [hindex, hdata, List.getElem?_set_self hlen]
    have hcrc : pktCrc (p.data.set p.crcIndex b) = pktCrc p.data := by
      have hplace : p.crcIndex = crcPlace p.extended := rfl
      rw [pktCrc_eq (show isExtended (firstByte (p.data.set p.crcIndex b)) = p.extended from hkind),
        pktCrc_eq (show isExtended (firstByte p.data) = p.extended from rfl), hplace,
        List.take_set_of_le le_rfl]
    rw [Packet.crcOk_of_get hreceived, hdata, hcrc]
    congr 1
    rw [decide_eq_false_iff_not]
    rintro rfl
    exact hne hget

/-- Copies of a message with different hops-left carry different CRCs, if both are intact. -/
theorem crc_ne_of_hopCopy {p q : Packet} (hp : p.crcOk = some true) (hq : q.crcOk = some true)
    (h : HopCopy p q) (hhops : q.hopsLeft ≠ p.hopsLeft) : q.crc ≠ p.crc := by
  intro hcrc
  have hgetp := Packet.get_of_crcOk hp
  have hgetq := Packet.get_of_crcOk hq
  have hsame : pktCrc q.data = pktCrc p.data := by
    rw [Packet.crc, Packet.crc, hgetp, hgetq] at hcrc
    exact Option.some.inj hcrc
  have hkind : q.extended = p.extended := isExtended_of_masked h.flags
  obtain ⟨hlen, -⟩ := List.getElem?_eq_some_iff.mp hgetp
  have hpos := crcIndex_pos p
  have htake : q.data.take p.crcIndex = (p.data.take p.crcIndex).set 0 q.flagsByte := by
    apply List.ext_getElem?
    intro i
    rw [List.getElem?_take]
    split_ifs with hi
    · cases i with
      | zero =>
          rw [List.getElem?_set_self (by rw [List.length_take]; omega), Packet.flagsByte]
          cases hd : q.data with
          | nil => exact absurd hd q.data_ne
          | cons f rest => rfl
      | succ i =>
          rw [List.getElem?_set_ne (by omega), List.getElem?_take, if_pos hi]
          exact h.bytes (i + 1) (Nat.succ_pos i) hi
    · rw [List.getElem?_eq_none]
      rw [List.length_set, List.length_take]
      omega
  have hplace : crcPlace p.extended = p.crcIndex := rfl
  rw [pktCrc_eq (show isExtended (firstByte q.data) = p.extended from hkind),
    pktCrc_eq (show isExtended (firstByte p.data) = p.extended from rfl), hplace, htake] at hsame
  have hflags := eq_of_foldl_crcStep_set (by rw [List.length_take]; omega) hsame
  apply hhops
  rw [Packet.hopsLeft, Packet.hopsLeft]
  rw [List.getElem?_take, if_pos hpos] at hflags
  have hfirst : p.flagsByte = q.flagsByte := by
    rw [Packet.flagsByte, firstByte_eq, List.getD_eq_getElem?_getD, hflags]
    rfl
  rw [hfirst]

/-- One damaged byte is noticed wherever it is, hops-left cannot change under the same CRC,
and the CRC is injective in each byte it covers. -/
theorem crc_notices :
    (∀ p : Packet, p.crcOk = some true → ∀ i b, i ≤ p.crcIndex → p.data[i]? ≠ some b →
      (p.setByte i b).extended = p.extended → (p.setByte i b).crcOk = some false) ∧
    (∀ p q : Packet, p.crcOk = some true → q.crcOk = some true → HopCopy p q →
      q.hopsLeft ≠ p.hopsLeft → q.crc ≠ p.crc) ∧
    ∀ (data : List Byte) (i : ℕ) (b c : Byte), i < data.length →
      i < crcPlace (isExtended (firstByte (data.set i b))) →
      isExtended (firstByte (data.set i c)) = isExtended (firstByte (data.set i b)) →
      pktCrc (data.set i b) = pktCrc (data.set i c) → b = c := by
  refine ⟨?_, ?_, ?_⟩
  · intro p h i b hi hne hkind
    exact crcOk_setByte h hi hne hkind
  · intro p q hp hq h hhops
    exact crc_ne_of_hopCopy hp hq h hhops
  · intro data i b c hi hcovered hkind h
    exact eq_of_pktCrc_set rfl hkind hi hcovered h

def nextHop : Packet :=
  Packet.ofBytes 0x07#8 [0x07#8, 0x93#8, 0x2B#8, 0x1D#8, 0x50#8, 0x33#8, 0x11#8, 0xFF#8, 0xD8#8,
    0x00#8, 0x00#8, 0xAA#8]

theorem nextHop_copy : HopCopy cleanPacket nextHop where
  flags := by decide +kernel
  bytes := by
    have hbytes : ∀ i < cleanPacket.crcIndex, 0 < i → nextHop.data[i]? = cleanPacket.data[i]? := by
      decide +kernel
    exact fun i hpos hi => hbytes i hi hpos

/-- A wrong level, the next hop and two commands. -/
theorem crc_notices_clean :
    (cleanPacket.setByte 8 0x7F#8).crcOk = some false ∧ nextHop.crc ≠ cleanPacket.crc ∧
      pktCrc (cleanPacket.data.set 7 0x13#8) ≠ pktCrc (cleanPacket.data.set 7 0x12#8) := by
  obtain ⟨hbyte, hhops, hinjective⟩ := crc_notices
  refine ⟨?_, ?_, ?_⟩
  · exact hbyte cleanPacket (by decide +kernel) 8 0x7F#8 (by decide +kernel) (by decide +kernel)
      (by decide +kernel)
  · exact hhops cleanPacket nextHop (by decide +kernel) (by decide +kernel) nextHop_copy
      (by decide +kernel)
  · intro hsame
    have hbytes := hinjective cleanPacket.data 7 0x13#8 0x12#8 (by decide +kernel) (by decide +kernel)
      (by decide +kernel) hsame
    cases hbytes

end InsteonRf
