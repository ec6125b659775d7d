import InsteonRf.RecoverSoundness
import InsteonRf.Bucket

/-!
# From captures to sightings

One receiver's capture becomes a sighting for every start header in it. A packet the
hard decoder could not verify gets a second chance by recovery.
-/
namespace InsteonRf
open StringSearch SignedIndex Recover

def captureRecovery : RecoverOptions where
  max_flips := 1
  candidates := 8

/-- The soft values of a capture in normal polarity, when they cover it. -/
def captureSoft (stream : Bits) (soft : Option (List ℚ)) : Option (List ℚ) :=
  match soft with
  | some v =>
      if stream.length ≤ v.length then
        if (findHeaders stream).1 ≠ stream then some ((v.take stream.length).map (- ·))
        else some (v.take stream.length)
      else none
  | none => none

/-- When the packet at `pos` went out; a capture's timestamp is that of its first bit. -/
def packetTime (timestamp : Option Time) (pos : ℕ) : Option Time :=
  timestamp.map (fun t => t + pos / baud)

def decodedWell (p : Packet) : Bool :=
  decide (p.crcOk = some true) && decide (p.index_ok ≠ some false)

/-- The packet whose start header stands at `pos`, decoded hard or else recovered. An
unverified packet stays if recovery has nothing better. -/
def packetAt (bits : Bits) (conf : Option (List ℚ)) (when_ : Option Time) (minBytes pos : ℕ) :
    Option Packet :=
  let recovered := (recoverAtOffset bits (softFor bits conf) pos when_ captureRecovery).map
    Recovered.packet
  match parseAt bits when_ minBytes pos with
  | some p => if decodedWell p then some p else some (recovered.getD p)
  | none => recovered

/-- Every packet in one receiver's capture, each with the capture from its header on. -/
def sightingsFromCapture (stream : Bits) (receiver : String) (rssi_dbm : Option ℚ)
    (timestamp : Option Time) (minBytes : ℕ) (soft : Option (List ℚ)) (snr_db : Option ℚ)
    (clock : Time) : List Sighting :=
  let (bits, positions) := findHeaders stream
  let conf := captureSoft stream soft
  positions.filterMap (fun pos =>
    (packetAt bits conf (packetTime timestamp pos) minBytes pos).map (fun p =>
      Sighting.build { p with rssi_dbm } receiver rssi_dbm (packetTime timestamp pos)
        (bits.drop pos) snr_db (conf.map (List.drop pos)) clock))

theorem sighting_packetAt {stream : Bits} {receiver : String} {rssi_dbm : Option ℚ}
    {timestamp : Option Time} {minBytes : ℕ} {soft : Option (List ℚ)} {snr_db : Option ℚ}
    {clock : Time} {s : Sighting}
    (h : s ∈ sightingsFromCapture stream receiver rssi_dbm timestamp minBytes soft snr_db clock) :
    ∃ pos ∈ (findHeaders stream).2, ∃ p,
      packetAt (findHeaders stream).1 (captureSoft stream soft) (packetTime timestamp pos) minBytes
        pos = some p ∧ s.packet = { p with rssi_dbm } := by
  obtain ⟨pos, hpos, hsome⟩ := List.mem_filterMap.mp h
  obtain ⟨p, hp, rfl⟩ := Option.map_eq_some_iff.mp hsome
  exact ⟨pos, hpos, p, hp, rfl⟩

/-- A packet in a capture comes from the hard decoder or from recovery. -/
theorem packetAt_cases {bits : Bits} {conf : Option (List ℚ)} {when_ : Option Time}
    {minBytes pos : ℕ} {p : Packet} (h : packetAt bits conf when_ minBytes pos = some p) :
    (parseAt bits when_ minBytes pos = some p ∧
        (decodedWell p = true ∨
          recoverAtOffset bits (softFor bits conf) pos when_ captureRecovery = none)) ∨
      ∃ r, recoverAtOffset bits (softFor bits conf) pos when_ captureRecovery = some r ∧
        p = r.packet := by
  rw [packetAt] at h
  cases hrec : recoverAtOffset bits (softFor bits conf) pos when_ captureRecovery with
  | none =>
      cases hparse : parseAt bits when_ minBytes pos with
      | none => simp [hrec, hparse] at h
      | some q =>
          have hq : q = p := by simpa [hrec, hparse] using h
          exact Or.inl ⟨by rw [hq], Or.inr rfl⟩
  | some r =>
      cases hparse : parseAt bits when_ minBytes pos with
      | none =>
          have hr : r.packet = p := by simpa [hrec, hparse] using h
          exact Or.inr ⟨r, rfl, hr.symm⟩
      | some q =>
          by_cases hwell : decodedWell q = true
          · have hq : q = p := by simpa [hrec, hparse, hwell] using h
            exact Or.inl ⟨by rw [hq], Or.inl (hq ▸ hwell)⟩
          · have hr : r.packet = p := by simpa [hrec, hparse, hwell] using h
            exact Or.inr ⟨r, rfl, hr.symm⟩

end InsteonRf
