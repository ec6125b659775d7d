import InsteonRf.ClockSkew
import InsteonRf.Combine
import InsteonRf.Plm
import Mathlib.Data.Prod.Lex

/-!
# Buckets

A bucket gathers the sightings of one message until its window closes, and is
then built into an event. A bucket carries what its constructor and `add` keep
true of it: it is not empty, its interval spans its sightings, its flag says
whether a copy with a matching CRC is in it, and its key is that copy's.
-/
namespace InsteonRf
open OrderedDict Selection

def baud : ℚ := 9124

/-- Consecutive hop repeats start this far apart. -/
def slotS : Time := 456 / baud

structure FusionConfig where
  window_s : Time := 3 / 5
  extend_s : Time := 1 / 5
  max_window_s : Time := 2
  repeat_memory_s : Time := 60
  allow_combine : Bool := true
  lateness_s : Time := 0

namespace Sighting

/-- A copy whose CRC passed is taken at its word. -/
def good (s : Sighting) : Bool := decide (s.packet.crcOk = some true)

def verified (s : Sighting) : Bool := s.packet.verified

def key (s : Sighting) : Key := messageKey s.packet

theorem good_of_verified {s : Sighting} (h : s.verified = true) : s.good = true :=
  decide_eq_true (Packet.crcOk_of_verified h)

end Sighting

structure Bucket where
  key : Key
  sightings : List Sighting
  opened : Time
  last : Time
  refBits : Bits
  hasGood : Bool
  nonempty : sightings ≠ []
  spans : ∀ s ∈ sightings, opened ≤ s.when ∧ s.when ≤ last
  hasGood_iff : hasGood = true ↔ ∃ s ∈ sightings, s.good = true
  keyed : hasGood = true → ∃ s ∈ sightings, s.good = true ∧ s.key = key

namespace Bucket

/-- `_Bucket(key, first, cfg)`, which opens the bucket and adds its first sighting. -/
def new (key : Key) (first : Sighting) : Bucket where
  key := if first.good then first.key else key
  sightings := [first]
  opened := first.when
  last := first.when
  refBits := first.bits
  hasGood := first.good
  nonempty := by simp
  spans := by simp
  hasGood_iff := by simp
  keyed := by
    intro h
    exact ⟨first, by simp, h, by simp [h]⟩

def add (b : Bucket) (s : Sighting) : Bucket where
  key := if s.good then s.key else b.key
  sightings := b.sightings ++ [s]
  opened := min b.opened s.when
  last := max b.last s.when
  refBits := if b.refBits.length < s.bits.length then s.bits else b.refBits
  hasGood := b.hasGood || s.good
  nonempty := by simp
  spans := by
    intro t ht
    rcases List.mem_append.mp ht with hold | hnew
    · obtain ⟨h₁, h₂⟩ := b.spans t hold
      exact ⟨(min_le_left _ _).trans h₁, h₂.trans (le_max_left _ _)⟩
    · obtain rfl := List.mem_singleton.mp hnew
      exact ⟨min_le_right _ _, le_max_right _ _⟩
  hasGood_iff := by
    rw [Bool.or_eq_true, b.hasGood_iff]
    simp [or_and_right, exists_or]
  keyed := by
    intro h
    by_cases hs : s.good = true
    · exact ⟨s, by simp, hs, by simp [hs]⟩
    · obtain ⟨t, ht, hgood, hkey⟩ := b.keyed (by simpa [hs] using h)
      exact ⟨t, List.mem_append_left _ ht, hgood, by simpa [hs] using hkey⟩

def addAll (b : Bucket) (ss : List Sighting) : Bucket := ss.foldl add b

@[simp] theorem sightings_new (key : Key) (s : Sighting) : (new key s).sightings = [s] := rfl

@[simp] theorem sightings_add (b : Bucket) (s : Sighting) :
    (b.add s).sightings = b.sightings ++ [s] := rfl

@[simp] theorem hasGood_add (b : Bucket) (s : Sighting) : (b.add s).hasGood = (b.hasGood || s.good) := rfl

@[simp] theorem sightings_addAll (b : Bucket) (ss : List Sighting) :
    (b.addAll ss).sightings = b.sightings ++ ss := by
  induction ss generalizing b with
  | nil => simp [addAll]
  | cons s ss ih =>
      have hstep : b.addAll (s :: ss) = (b.add s).addAll ss := rfl
      rw [hstep, ih, sightings_add, List.append_assoc]
      rfl

theorem good_false_of_mem {b : Bucket} (h : b.hasGood = false) {s : Sighting}
    (hs : s ∈ b.sightings) : s.good = false := by
  by_contra hgood
  have hhas := b.hasGood_iff.mpr ⟨s, hs, by simpa using hgood⟩
  rw [h] at hhas
  cases hhas

/-- Folding copies without a matching CRC keeps the key and the flag. -/
theorem addAll_keeps {b : Bucket} {ss : List Sighting} (h : ∀ s ∈ ss, s.good = false) :
    (b.addAll ss).key = b.key ∧ (b.addAll ss).hasGood = b.hasGood := by
  induction ss generalizing b with
  | nil => exact ⟨rfl, rfl⟩
  | cons s ss ih =>
      have hs := h s (by simp)
      obtain ⟨hkey, hgood⟩ := ih (b := b.add s) (fun t ht => h t (List.mem_cons_of_mem _ ht))
      have hstep : b.addAll (s :: ss) = (b.add s).addAll ss := rfl
      rw [hstep]
      exact ⟨by rw [hkey]; simp [add, hs], by rw [hgood]; simp [hs]⟩

/-- The latest on-air time a copy can have and still belong here. -/
def deadline (cfg : FusionConfig) (b : Bucket) : Time :=
  min (b.last + cfg.window_s + cfg.extend_s * ((b.sightings.length : ℚ) - 1))
    (b.opened + cfg.max_window_s)

def accepts (cfg : FusionConfig) (b : Bucket) (w : Time) : Bool :=
  decide (b.opened - cfg.window_s ≤ w ∧ w ≤ b.deadline cfg)

def isClosed (cfg : FusionConfig) (b : Bucket) (now : Time) : Bool := decide (b.deadline cfg < now)

/-- Per receiver with a verified copy, when by its clock the message first went out. -/
def origins (b : Bucket) : Dict String Time :=
  b.sightings.foldl (fun d s =>
    if s.verified then
      let t := s.raw_when.getD s.when - ((s.packet.maxHops : ℚ) - s.packet.hopsLeft) * slotS
      match d.get s.receiver with
      | none => d.set s.receiver t
      | some u => if t < u then d.set s.receiver t else d
    else d) Dict.empty

end Bucket

/-- What one receiver contributed to a fused event. -/
structure ReceiverView where
  copies : ℕ := 0
  crc_ok : Bool := false
  rssi_dbm : Option ℚ := none
  best_hops_left : ℤ := -1
  snr_db : Option ℚ := none
  deriving DecidableEq, Repr

def bestReading (old new : Option ℚ) : Option ℚ :=
  match old, new with
  | _, none => old
  | none, some x => some x
  | some y, some x => if y < x then some x else some y

def ReceiverView.note (v : ReceiverView) (s : Sighting) : ReceiverView where
  copies := v.copies + 1
  crc_ok := v.crc_ok || s.verified
  rssi_dbm := bestReading v.rssi_dbm s.rssi_dbm
  best_hops_left := max v.best_hops_left s.packet.hopsLeft
  snr_db := bestReading v.snr_db s.snr_db

structure FusedEvent where
  key : Key
  packet : Packet
  first_seen : Time
  last_seen : Time
  hops_left_min : ℕ
  hops_left_max : ℕ
  receivers : Dict String ReceiverView
  closest : Option String
  combined : Bool
  combined_from : ℕ
  repeat_index : ℕ := 0
  plm_saw_it : Option Bool := none
  deriving DecidableEq

namespace FusedEvent

def hopsUsed (e : FusedEvent) : ℤ := (e.packet.maxHops : ℤ) - e.hops_left_min

def heardBy (e : FusedEvent) : ℕ := e.receivers.items.length

end FusedEvent

namespace Bucket

def views (ss : List Sighting) : Dict String ReceiverView :=
  ss.foldl (fun d s => d.set s.receiver (((d.get s.receiver).getD {}).note s)) Dict.empty

theorem mem_keys_views {ss : List Sighting} {r : String} :
    r ∈ (views ss).keys ↔ r ∈ ss.map Sighting.receiver := by
  induction ss using List.reverseRecOn with
  | nil => simp [views, Dict.keys]
  | append_singleton ss s ih =>
      have hstep : views (ss ++ [s]) =
          (views ss).set s.receiver ((((views ss).get s.receiver).getD {}).note s) := by
        simp [views]
      rw [hstep, Dict.mem_keys_set, ih, List.map_append, List.mem_append, List.map_singleton,
        List.mem_singleton, or_comm]

/-- Preference among verified copies: unrepaired, least travelled, strongest. -/
def preference (s : Sighting) : Lex (Bool × Lex (ℕ × ℚ)) :=
  toLex (decide (s.packet.corrected = 0), toLex (s.packet.hopsLeft, s.rssi_dbm.getD (-999)))

def closeness (e : String × ReceiverView) : Lex (ℤ × ℚ) :=
  toLex (e.2.best_hops_left, e.2.rssi_dbm.getD (-999))

/-- The packet of the event, whether it was combined and from how many sightings. -/
def choosePacket (b : Bucket) (allowCombine : Bool) : Packet × Bool × ℕ :=
  match maxOn preference (b.sightings.filter Sighting.verified) with
  | some best => (best.packet, false, 0)
  | none =>
      match if allowCombine then combine b.sightings else none with
      | some (p, n) => (p, true, n)
      | none => ((b.sightings.head b.nonempty).packet, false, 0)

def hopsList (b : Bucket) : List ℕ := b.sightings.map (fun s => s.packet.hopsLeft)

def build (b : Bucket) (allowCombine : Bool) : FusedEvent :=
  let chosen := b.choosePacket allowCombine
  let vs := views b.sightings
  { key := b.key
    packet := chosen.1
    first_seen := b.opened
    last_seen := b.last
    hops_left_min := b.hopsList.foldl min (b.sightings.head b.nonempty).packet.hopsLeft
    hops_left_max := b.hopsList.foldl max 0
    receivers := vs
    closest := (maxOn closeness vs.items).map Prod.fst
    combined := chosen.2.1
    combined_from := chosen.2.2 }

theorem choosePacket_cases (b : Bucket) (allowCombine : Bool) :
    (∃ s ∈ b.sightings, s.verified = true ∧ b.choosePacket allowCombine = (s.packet, false, 0)) ∨
    ((∀ s ∈ b.sightings, s.verified = false) ∧
      ((∃ p n, allowCombine = true ∧ combine b.sightings = some (p, n) ∧
          b.choosePacket allowCombine = (p, true, n)) ∨
        b.choosePacket allowCombine = ((b.sightings.head b.nonempty).packet, false, 0))) := by
  cases hbest : maxOn preference (b.sightings.filter Sighting.verified) with
  | some best =>
      obtain ⟨hmem, hver⟩ := List.mem_filter.mp (maxOn_mem hbest)
      exact Or.inl ⟨best, hmem, hver, by simp [choosePacket, hbest]⟩
  | none =>
      have hnone : ∀ s ∈ b.sightings, s.verified = false := by
        intro s hs
        by_contra hver
        have hmem : s ∈ b.sightings.filter Sighting.verified :=
          List.mem_filter.mpr ⟨hs, by simpa using hver⟩
        rw [maxOn_eq_none_iff.mp hbest] at hmem
        simp at hmem
      refine Or.inr ⟨hnone, ?_⟩
      cases hc : if allowCombine then combine b.sightings else none with
      | none => exact Or.inr (by simp [choosePacket, hbest, hc])
      | some got =>
          obtain ⟨p, n⟩ := got
          have hallow : allowCombine = true := by
            by_contra hf
            simp [hf] at hc
          refine Or.inl ⟨p, n, hallow, by simpa [hallow] using hc, ?_⟩
          simp [choosePacket, hbest, hc]

theorem combined_from_of_combined {b : Bucket} {allowCombine : Bool}
    (h : (b.build allowCombine).combined = true) :
    (b.build allowCombine).combined_from = b.sightings.length ∧ (∀ s ∈ b.sightings, s.verified = false) := by
  rcases b.choosePacket_cases allowCombine with ⟨s, -, -, hc⟩ | ⟨hnone, ⟨p, n, -, hcomb, hc⟩ | hc⟩
  · simp [build, hc] at h
  · exact ⟨by simpa [build, hc] using combine_count hcomb, hnone⟩
  · simp [build, hc] at h

end Bucket

end InsteonRf
