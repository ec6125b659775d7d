import InsteonRf.Packet
import InsteonRf.Lib.Machine
import InsteonRf.Lib.OrderedDict
import InsteonRf.Lib.Selection

/-!
# The CC1101's registers

The driver programs the radio from its settings, and on top of them from a table of registers
tuned by hand. The loop changes the settings at any time and raises a flag; the radio task takes
the flag down and programs the radio. A radio that lost its registers is found by reading some
of them back.
-/
namespace InsteonRf.Cc1101
open OrderedDict

def xtalHz : ℕ := 26000000

def iocfg2 : ℕ := 0x00
def iocfg1 : ℕ := 0x01
def iocfg0 : ℕ := 0x02
def fifothr : ℕ := 0x03
def sync1 : ℕ := 0x04
def sync0 : ℕ := 0x05
def pktlen : ℕ := 0x06
def pktctrl1 : ℕ := 0x07
def pktctrl0 : ℕ := 0x08
def addr : ℕ := 0x09
def channr : ℕ := 0x0A
def fsctrl1 : ℕ := 0x0B
def fsctrl0 : ℕ := 0x0C
def freq2 : ℕ := 0x0D
def freq1 : ℕ := 0x0E
def freq0 : ℕ := 0x0F
def mdmcfg4 : ℕ := 0x10
def mdmcfg3 : ℕ := 0x11
def mdmcfg2 : ℕ := 0x12
def mdmcfg1 : ℕ := 0x13
def mdmcfg0 : ℕ := 0x14
def deviatn : ℕ := 0x15
def mcsm2 : ℕ := 0x16
def mcsm1 : ℕ := 0x17
def mcsm0 : ℕ := 0x18
def foccfg : ℕ := 0x19
def bscfg : ℕ := 0x1A
def agcctrl2 : ℕ := 0x1B
def agcctrl1 : ℕ := 0x1C
def agcctrl0 : ℕ := 0x1D
def frend1 : ℕ := 0x21
def frend0 : ℕ := 0x22
def fscal3 : ℕ := 0x23
def fscal2 : ℕ := 0x24
def fscal1 : ℕ := 0x25
def fscal0 : ℕ := 0x26
def test2 : ℕ := 0x2C
def test1 : ℕ := 0x2D
def test0 : ℕ := 0x2E

structure RadioConfig where
  frequency_hz : BitVec 32 := 914990000
  bandwidth_hz : BitVec 32 := 203000
  sync_mode : Byte := 6
  sync_word : BitVec 32 := 0x3155
  capture_bytes : Byte := 162
  rx_attenuation : Byte := 0
  max_lna_gain : Byte := 0
  carrier_sense_abs : Byte := 0

/-- `llround(hz * 65536.0 / CC1101_XTAL_HZ)` -/
def freqWord (hz : ℕ) : ℕ := (2 * (hz * 65536) + xtalHz) / (2 * xtalHz)

def frequencyWrites (hz : BitVec 32) : List (ℕ × Byte) :=
  let freq := BitVec.ofNat 32 (freqWord hz.toNat)
  [(freq2, (freq >>> 16).setWidth 8), (freq1, (freq >>> 8).setWidth 8), (freq0, freq.setWidth 8)]

def filterHz (em : ℕ × ℕ) : ℚ := xtalHz / (8 * (4 + em.2) * 2 ^ em.1)

/-- The exponents and mantissas in the order they are tried. -/
def filterSettings : List (ℕ × ℕ) :=
  [3, 2, 1, 0].flatMap (fun e => [3, 2, 1, 0].map (fun m => (e, m)))

/-- The smallest filter at or above the request; the widest where there is none. -/
def chooseFilter (bandwidth_hz : ℚ) : ℕ × ℕ :=
  (Selection.leastOn (fun em => bandwidth_hz ≤ filterHz em) filterHz filterSettings).getD (0, 0)

def bitrate : ℕ := 9124

def deviationHz : ℕ := 75000

def rateMantissa (e : ℕ) : ℚ := bitrate * 268435456 / (xtalHz * 2 ^ e) - 256

def chooseRate : ℕ × ℕ :=
  match (List.range 16).find? (fun e =>
      decide (-1 / 2 ≤ rateMantissa e) && decide (rateMantissa e < 511 / 2)) with
  | some e => (e, ⌊rateMantissa e + 1 / 2⌋.toNat)
  | none => (0, 0)

def deviationOf (em : ℕ × ℕ) : ℚ := xtalHz / 131072 * (8 + em.2) * 2 ^ em.1

/-- The deviation nearest to Insteon's. -/
def chooseDeviation : ℕ × ℕ :=
  (((List.range 8).flatMap (fun e => (List.range 8).map (fun m => (e, m)))).foldl
    (fun best em =>
      if |deviationOf em - deviationHz| < best.1 then (|deviationOf em - deviationHz|, em) else best)
    ((10 : ℚ) ^ 12, (0, 0))).2

/-- `configure_radio_`, register by register, up to the overrides. -/
def configWrites (c : RadioConfig) : List (ℕ × Byte) :=
  [(sync1, (c.sync_word >>> 8).setWidth 8), (sync0, c.sync_word.setWidth 8),
    (iocfg2, 0x00), (iocfg1, 0x2E), (iocfg0, 0x06),
    (fifothr, 0x40 ||| (c.rx_attenuation &&& 0x03) <<< 4 ||| 0x01),
    (pktlen, c.capture_bytes), (pktctrl1, 0x00), (pktctrl0, 0x00), (addr, 0x00), (channr, 0x00),
    (fsctrl1, 0x06), (fsctrl0, 0x00)] ++
  frequencyWrites c.frequency_hz ++
  [(mdmcfg4, BitVec.ofNat 8 ((chooseFilter c.bandwidth_hz.toNat).1 * 64 +
      (chooseFilter c.bandwidth_hz.toNat).2 * 16 + chooseRate.1)),
    (mdmcfg3, BitVec.ofNat 8 chooseRate.2), (mdmcfg2, c.sync_mode &&& 0x07), (mdmcfg1, 0x22),
    (mdmcfg0, 0xF8), (deviatn, BitVec.ofNat 8 (chooseDeviation.1 * 16 + chooseDeviation.2)),
    (mcsm2, 0x07), (mcsm1, 0x0C), (mcsm0, 0x18), (foccfg, 0x37), (bscfg, 0x6E),
    (agcctrl2, (c.max_lna_gain &&& 0x07) <<< 3 ||| 0x03),
    (agcctrl1, 0x40 ||| (c.carrier_sense_abs &&& 0x0F)), (agcctrl0, 0x91), (frend1, 0x56),
    (frend0, 0x10), (fscal3, 0xE9), (fscal2, 0x2A), (fscal1, 0x00), (fscal0, 0x1F), (test2, 0x81),
    (test1, 0x35), (test0, 0x09)]

def overrideSlots : ℕ := 12

/-- `tune_register`: what is in the table is replaced, and a full table takes nothing new. -/
def tuneRegister (overrides : List (ℕ × Byte)) (a : ℕ) (value : Byte) : List (ℕ × Byte) :=
  if a = 0xFF then []
  else if a ≤ 0x2E ∧ (a ∈ overrides.map Prod.fst ∨ overrides.length < overrideSlots) then
    write overrides a value
  else overrides

inductive Tune where
  | frequency (hz : BitVec 32)
  | bandwidth (hz : BitVec 32)
  | syncMode (mode : Byte)
  | rxAttenuation (code : Byte)
  | maxLnaGain (code : Byte)
  | carrierSenseAbs (thr : Byte)
  | syncWord (word : BitVec 16)
  | register (a : ℕ) (value : Byte)

/-- The driver's settings, its two flags, and the registers of the radio. `pending` is set
between taking the request down and programming the radio. -/
structure Tuner where
  config : RadioConfig := {}
  overrides : List (ℕ × Byte) := []
  requested : Bool := false
  pending : Bool := false
  chip : ℕ → Byte

def program (chip : ℕ → Byte) (writes : List (ℕ × Byte)) : ℕ → Byte :=
  writes.foldl (fun chip w => Function.update chip w.1 w.2) chip

/-- How `configure_radio_` ends: with the radio programmed, without an answer from it, or with a
sync word that does not read back as it was written. -/
inductive Outcome where
  | configured
  | silent
  | mismatch (back1 back0 : Byte)
  deriving DecidableEq

inductive TunerEvent where
  | tune (t : Tune)
  | takeRequest
  | configure (outcome : Outcome)
  | hardReset (outcome : Outcome)
  | scan (sweep : List (BitVec 32))
  | calibrate (fscal3 fscal2 fscal1 : Byte)
  | verify (answers : Bool) (outcome : Outcome)
  | brownOut

namespace Tuner

def tune (s : Tuner) : Tune → Tuner
  | .frequency hz => { s with config.frequency_hz := hz, requested := true }
  | .bandwidth hz => { s with config.bandwidth_hz := hz, requested := true }
  | .syncMode mode => { s with config.sync_mode := mode, requested := true }
  | .rxAttenuation code => { s with config.rx_attenuation := code, requested := true }
  | .maxLnaGain code => { s with config.max_lna_gain := code, requested := true }
  | .carrierSenseAbs thr => { s with config.carrier_sense_abs := thr, requested := true }
  | .syncWord word => { s with config.sync_word := word.setWidth 32, requested := true }
  | .register a value =>
      { s with overrides := tuneRegister s.overrides a value, requested := true }

/-- `configure_radio_`; one that fails may have written the sync word, and nothing else. -/
def configure (s : Tuner) : Outcome → Tuner
  | .configured => { s with chip := program (program s.chip (configWrites s.config)) s.overrides }
  | .silent => s
  | .mismatch back1 back0 => { s with chip := program s.chip [(sync1, back1), (sync0, back0)] }

def verifyRegisters (s : Tuner) : Bool :=
  let ok := s.chip sync1 == (s.config.sync_word >>> 8).setWidth 8 &&
    s.chip sync0 == s.config.sync_word.setWidth 8 &&
    s.chip pktlen == s.config.capture_bytes &&
    s.chip mdmcfg2 &&& 0x07 == s.config.sync_mode &&& 0x07 &&
    s.chip test2 == 0x81
  ok && (decide (0 < s.overrides.length) || s.chip foccfg == 0x37)

/-- The registers of `defaults` are those of a radio that was reset. The answer is whether the
radio was found to have lost its registers. The request is down before the radio is programmed,
and stays down if that fails. -/
def step (defaults : ℕ → Byte) (s : Tuner) : TunerEvent → Tuner × Bool
  | .tune t => (s.tune t, false)
  | .takeRequest =>
      if s.requested then ({ s with requested := false, pending := true }, false) else (s, false)
  | .configure outcome =>
      if s.pending then ({ s.configure outcome with pending := false }, false) else (s, false)
  | .hardReset outcome => (({ s with chip := defaults } : Tuner).configure outcome, false)
  | .scan sweep =>
      let writes := (sweep ++ [s.config.frequency_hz]).flatMap frequencyWrites
      ({ s with chip := program s.chip writes }, false)
  | .calibrate v3 v2 v1 =>
      ({ s with chip := program s.chip [(fscal3, v3), (fscal2, v2), (fscal1, v1)] }, false)
  | .verify answers outcome =>
      if answers && s.verifyRegisters then (s, false) else (s.configure outcome, true)
  | .brownOut => ({ s with chip := defaults }, false)

def boot (defaults : ℕ → Byte) (config : RadioConfig) : Tuner :=
  ({ config, chip := defaults } : Tuner).configure .configured

end Tuner

/-- What a register should hold: the override, or what the settings say. -/
def desired (c : RadioConfig) (overrides : List (ℕ × Byte)) (a : ℕ) : Option Byte :=
  (lookup overrides a).or (lookup (configWrites c) a)

/-- The registers that only the driver writes, and only in one place: the radio calibrates
some itself, and a scan leaves the frequency of the settings. -/
def Owned (overrides : List (ℕ × Byte)) (a : ℕ) : Prop :=
  a ∉ [fscal3, fscal2, fscal1] ∧ (a ∈ [freq2, freq1, freq0] → lookup overrides a = none)

/-- The radio is programmed as the settings say. -/
def InEffect (s : Tuner) : Prop :=
  ∀ a, Owned s.overrides a → ∀ v ∈ desired s.config s.overrides a, s.chip a = v

theorem program_of_notMem (chip : ℕ → Byte) {writes : List (ℕ × Byte)} {a : ℕ}
    (ha : a ∉ writes.map Prod.fst) : program chip writes a = chip a := by
  induction writes generalizing chip with
  | nil => rfl
  | cons w writes ih =>
      rw [List.map_cons, List.mem_cons, not_or] at ha
      rw [program, List.foldl_cons, ← program, ih _ ha.2, Function.update_of_ne ha.1]

/-- Where no register is written twice, each holds what was written to it. -/
theorem program_apply (chip : ℕ → Byte) {writes : List (ℕ × Byte)}
    (hnodup : (writes.map Prod.fst).Nodup) (a : ℕ) :
    program chip writes a = (lookup writes a).getD (chip a) := by
  induction writes generalizing chip with
  | nil => rfl
  | cons w writes ih =>
      rw [List.map_cons, List.nodup_cons] at hnodup
      rw [program, List.foldl_cons, ← program, lookup]
      by_cases ha : w.1 = a
      · rw [if_pos ha, program_of_notMem _ (ha ▸ hnodup.1), ha, Function.update_self]
        rfl
      · rw [if_neg ha, ih _ hnodup.2, Function.update_of_ne (Ne.symm ha)]

theorem configWrites_nodup (c : RadioConfig) : ((configWrites c).map Prod.fst).Nodup := by
  simp only [configWrites, frequencyWrites, List.map_append, List.map_cons, List.map_nil]
  decide

/-- The table of overrides: one value a register, and no more than it has room for. -/
structure Table (overrides : List (ℕ × Byte)) : Prop where
  nodup : (overrides.map Prod.fst).Nodup
  slots : overrides.length ≤ overrideSlots

theorem tuneRegister_table {overrides : List (ℕ × Byte)} (h : Table overrides) (a : ℕ)
    (value : Byte) : Table (tuneRegister overrides a value) := by
  rw [tuneRegister]
  split_ifs with hclear hroom
  · exact ⟨List.nodup_nil, Nat.zero_le _⟩
  · refine ⟨nodup_write h.nodup a value, ?_⟩
    have hkeys := congrArg List.length (keys_write overrides a value)
    rw [List.length_map] at hkeys
    rw [hkeys]
    split_ifs with hmem
    · rw [List.length_map]
      exact h.slots
    · rw [List.length_append, List.length_map, List.length_singleton]
      exact hroom.2.resolve_left hmem
  · exact h

theorem configure_inEffect {s : Tuner} (hnodup : (s.overrides.map Prod.fst).Nodup) :
    InEffect (s.configure .configured) := by
  intro a _ v hv
  have hchip : (s.configure .configured).chip a =
      (lookup s.overrides a).getD ((lookup (configWrites s.config) a).getD (s.chip a)) := by
    rw [Tuner.configure]
    simp only [program_apply _ hnodup, program_apply _ (configWrites_nodup s.config)]
  have hdesired : (lookup s.overrides a).or (lookup (configWrites s.config) a) = some v := hv
  rw [hchip]
  cases hover : lookup s.overrides a with
  | some w =>
      rw [hover, Option.some_or] at hdesired
      exact Option.some.inj hdesired
  | none =>
      rw [hover, Option.none_or] at hdesired
      rw [hdesired]
      rfl

/-- The registers of the sync word apart, the radio is programmed as the settings say. -/
def InEffectButSync (s : Tuner) : Prop :=
  ∀ a, a ∉ [sync1, sync0] → Owned s.overrides a →
    ∀ v ∈ desired s.config s.overrides a, s.chip a = v

theorem InEffect.butSync {s : Tuner} (h : InEffect s) : InEffectButSync s :=
  fun a _ howned v hv => h a howned v hv

/-- What the radio holds while nothing is requested or under way: the settings, or where the
radio may fail, these but the sync word, or what a reset left of them. -/
structure Kept (defaults : ℕ → Byte) (faulty : Bool) (s : Tuner) : Prop where
  table : Table s.overrides
  settled : s.requested = false → s.pending = false →
    InEffect s ∨ faulty = true ∧ (InEffectButSync s ∨ s.chip test2 = defaults test2)

/-- The radio answers while it is configured on request. Unless it may fail it answers a hard
reset, keeps its registers, and keeps the sync word it is given. -/
def Allowed (faulty : Bool) : TunerEvent → Prop
  | .configure outcome => outcome = .configured
  | .hardReset outcome => outcome = .configured ∨ faulty = true
  | .verify _ outcome => outcome = .configured ∨ outcome = .silent ∨ faulty = true
  | .brownOut => faulty = true
  | _ => True

theorem sweep_keys (sweep : List (BitVec 32)) {a : ℕ}
    (ha : a ∈ (sweep.flatMap frequencyWrites).map Prod.fst) : a ∈ [freq2, freq1, freq0] := by
  obtain ⟨w, hw, rfl⟩ := List.mem_map.mp ha
  obtain ⟨hz, -, hw⟩ := List.mem_flatMap.mp hw
  simp only [frequencyWrites, List.mem_cons, List.not_mem_nil, or_false] at hw ⊢
  rcases hw with rfl | rfl | rfl
  · exact Or.inl rfl
  · exact Or.inr (Or.inl rfl)
  · exact Or.inr (Or.inr rfl)

theorem program_append (chip : ℕ → Byte) (ws ws' : List (ℕ × Byte)) :
    program chip (ws ++ ws') = program (program chip ws) ws' := by
  rw [program, List.foldl_append, program, program]

/-- Behind a scan the radio is tuned as the settings say. -/
theorem scan_keeps {s : Tuner} (sweep : List (BitVec 32)) {a : ℕ} (howned : Owned s.overrides a)
    {v : Byte} (hv : v ∈ desired s.config s.overrides a) (hold : s.chip a = v) :
    program s.chip ((sweep ++ [s.config.frequency_hz]).flatMap frequencyWrites) a = v := by
  have hnodup : ((frequencyWrites s.config.frequency_hz).map Prod.fst).Nodup := by
    simp only [frequencyWrites, List.map_cons, List.map_nil]
    decide
  have hlast : program s.chip ((sweep ++ [s.config.frequency_hz]).flatMap frequencyWrites) a =
      (lookup (frequencyWrites s.config.frequency_hz) a).getD
        (program s.chip (sweep.flatMap frequencyWrites) a) := by
    rw [List.flatMap_append, program_append, List.flatMap_singleton, program_apply _ hnodup]
  rw [hlast]
  by_cases hfreq : a ∈ [freq2, freq1, freq0]
  · have hwritten : ∃ w, (a, w) ∈ frequencyWrites s.config.frequency_hz := by
      simp only [List.mem_cons, List.not_mem_nil, or_false] at hfreq
      rcases hfreq with rfl | rfl | rfl
      · exact ⟨_, List.mem_cons_self⟩
      · exact ⟨_, List.mem_cons_of_mem _ List.mem_cons_self⟩
      · exact ⟨_, List.mem_cons_of_mem _ (List.mem_cons_of_mem _ List.mem_cons_self)⟩
    obtain ⟨w, hw⟩ := hwritten
    have hconfig : (a, w) ∈ configWrites s.config := by
      rw [configWrites]
      exact List.mem_append_left _ (List.mem_append_right _ hw)
    have hvalue : lookup (configWrites s.config) a = some w :=
      lookup_of_mem (configWrites_nodup s.config) hconfig
    have hdesired : (lookup s.overrides a).or (lookup (configWrites s.config) a) = some v := hv
    rw [howned.2 hfreq, Option.none_or, hvalue] at hdesired
    rw [lookup_of_mem hnodup hw]
    exact Option.some.inj hdesired
  · have hnone : lookup (frequencyWrites s.config.frequency_hz) a = none := by
      rw [lookup_eq_none_iff]
      intro hmem
      have hone := sweep_keys [s.config.frequency_hz] (a := a)
      rw [List.flatMap_singleton] at hone
      exact hfreq (hone hmem)
    rw [hnone, Option.getD_none, program_of_notMem _ (fun hmem => hfreq (sweep_keys sweep hmem))]
    exact hold

theorem tune_requested (s : Tuner) (t : Tune) : (s.tune t).requested = true := by
  cases t <;> rfl

@[simp] theorem configure_config (s : Tuner) (outcome : Outcome) :
    (s.configure outcome).config = s.config := by
  cases outcome <;> rfl

@[simp] theorem configure_overrides (s : Tuner) (outcome : Outcome) :
    (s.configure outcome).overrides = s.overrides := by
  cases outcome <;> rfl

theorem mismatch_chip (s : Tuner) (back1 back0 : Byte) {a : ℕ} (ha : a ∉ [sync1, sync0]) :
    (s.configure (.mismatch back1 back0)).chip a = s.chip a := by
  rw [Tuner.configure]
  exact program_of_notMem _ ha

theorem InEffect.of_same {s t : Tuner} (h : InEffect s) (hconfig : t.config = s.config)
    (hoverrides : t.overrides = s.overrides) (hchip : t.chip = s.chip) : InEffect t := by
  rw [InEffect, hconfig, hoverrides, hchip]
  exact h

theorem Kept.of_programmed {defaults : ℕ → Byte} {faulty : Bool} {s t : Tuner}
    (htable : Table s.overrides) (hconfig : t.config = s.config)
    (hoverrides : t.overrides = s.overrides) (hchip : t.chip = (s.configure .configured).chip) :
    Kept defaults faulty t where
  table := hoverrides ▸ htable
  settled _ _ := Or.inl ((configure_inEffect htable.nodup).of_same
    (hconfig.trans (configure_config s .configured).symm)
    (hoverrides.trans (configure_overrides s .configured).symm) hchip)

/-- A radio that fails while it is programmed again keeps what it held, the sync word apart. -/
theorem Kept.of_failed {defaults : ℕ → Byte} {s : Tuner} (h : Kept defaults true s)
    (outcome : Outcome) : Kept defaults true (s.configure outcome) := by
  cases outcome with
  | configured =>
      exact Kept.of_programmed h.table (configure_config s .configured)
        (configure_overrides s .configured) rfl
  | silent => exact h
  | mismatch back1 back0 =>
      refine ⟨h.table, fun hrequested hpending => Or.inr ⟨rfl, ?_⟩⟩
      have hbut : InEffectButSync s → InEffectButSync (s.configure (.mismatch back1 back0)) := by
        intro heffect a ha howned v hv
        rw [mismatch_chip s back1 back0 ha]
        exact heffect a ha howned v hv
      rcases h.settled hrequested hpending with heffect | ⟨-, heffect | hlost⟩
      · exact Or.inl (hbut heffect.butSync)
      · exact Or.inl (hbut heffect)
      · refine Or.inr ?_
        rw [mismatch_chip s back1 back0 (by decide)]
        exact hlost

theorem kept_step {defaults : ℕ → Byte} {faulty : Bool} (s : Tuner) (e : TunerEvent)
    (he : Allowed faulty e) (h : Kept defaults faulty s) :
    Kept defaults faulty (s.step defaults e).1 := by
  cases e with
  | tune t =>
      constructor
      · cases t with
        | register a value => exact tuneRegister_table h.table a value
        | _ => exact h.table
      · intro hfalse
        exact Bool.noConfusion ((tune_requested s t).symm.trans hfalse)
  | takeRequest =>
      rw [Tuner.step]
      split_ifs with hrequested
      · exact ⟨h.table, fun _ hfalse => Bool.noConfusion hfalse⟩
      · exact h
  | configure outcome =>
      obtain rfl : outcome = .configured := he
      rw [Tuner.step]
      split_ifs with hpending
      · exact Kept.of_programmed h.table (configure_config s .configured)
          (configure_overrides s .configured) rfl
      · exact h
  | hardReset outcome =>
      rw [Tuner.step]
      rcases he with rfl | rfl
      · exact Kept.of_programmed (s := { s with chip := defaults }) h.table
          (configure_config _ .configured) (configure_overrides _ .configured) rfl
      · have hreset : Kept defaults true { s with chip := defaults } :=
          ⟨h.table, fun _ _ => Or.inr ⟨rfl, Or.inr rfl⟩⟩
        exact hreset.of_failed outcome
  | scan sweep =>
      refine ⟨h.table, fun hrequested hpending => ?_⟩
      rw [Tuner.step]
      rcases h.settled hrequested hpending with heffect | ⟨hfaulty, heffect | hlost⟩
      · exact Or.inl fun a howned v hv => scan_keeps (s := s) sweep howned hv (heffect a howned v hv)
      · exact Or.inr ⟨hfaulty, Or.inl fun a ha howned v hv =>
          scan_keeps (s := s) sweep howned hv (heffect a ha howned v hv)⟩
      · refine Or.inr ⟨hfaulty, Or.inr ?_⟩
        dsimp only
        rw [program_of_notMem _ (fun hmem => absurd (sweep_keys _ hmem) (by decide))]
        exact hlost
  | calibrate v3 v2 v1 =>
      refine ⟨h.table, fun hrequested hpending => ?_⟩
      rw [Tuner.step]
      have hkeeps : ∀ a, Owned s.overrides a →
          program s.chip [(fscal3, v3), (fscal2, v2), (fscal1, v1)] a = s.chip a :=
        fun a howned => program_of_notMem _ howned.1
      rcases h.settled hrequested hpending with heffect | ⟨hfaulty, heffect | hlost⟩
      · exact Or.inl fun a howned v hv => (hkeeps a howned).trans (heffect a howned v hv)
      · exact Or.inr ⟨hfaulty, Or.inl fun a ha howned v hv =>
          (hkeeps a howned).trans (heffect a ha howned v hv)⟩
      · exact Or.inr ⟨hfaulty, Or.inr hlost⟩
  | verify answers outcome =>
      rw [Tuner.step]
      split_ifs
      · exact h
      · rcases he with rfl | rfl | rfl
        · exact Kept.of_programmed h.table (configure_config s .configured)
            (configure_overrides s .configured) rfl
        · exact h
        · exact h.of_failed outcome
  | brownOut => exact ⟨h.table, fun _ _ => Or.inr ⟨he, Or.inr rfl⟩⟩

theorem boot_kept (defaults : ℕ → Byte) (faulty : Bool) (config : RadioConfig) :
    Kept defaults faulty (Tuner.boot defaults config) :=
  Kept.of_programmed (s := { config, chip := defaults }) ⟨List.nodup_nil, Nat.zero_le _⟩ (configure_config _ .configured)
    (configure_overrides _ .configured) rfl

/-- An override that the read back takes for a lost register. -/
def Disagrees (c : RadioConfig) (w : ℕ × Byte) : Prop :=
  w.1 = sync1 ∧ w.2 ≠ (c.sync_word >>> 8).setWidth 8 ∨
    w.1 = sync0 ∧ w.2 ≠ c.sync_word.setWidth 8 ∨
    w.1 = pktlen ∧ w.2 ≠ c.capture_bytes ∨
    w.1 = mdmcfg2 ∧ w.2 &&& 0x07 ≠ c.sync_mode &&& 0x07 ∨
    w.1 = test2 ∧ w.2 ≠ 0x81

theorem InEffect.chip_eq {s : Tuner} (h : InEffect s) {a : ℕ} {v : Byte}
    (hwrite : (a, v) ∈ configWrites s.config)
    (howned : a ∉ [fscal3, fscal2, fscal1] ++ [freq2, freq1, freq0]) :
    s.chip a = (lookup s.overrides a).getD v := by
  rw [List.mem_append, not_or] at howned
  have hvalue := lookup_of_mem (configWrites_nodup s.config) hwrite
  refine h a ⟨howned.1, fun hmem => absurd hmem howned.2⟩ _ ?_
  rw [desired, hvalue]
  cases lookup s.overrides a <;> rfl

theorem InEffect.reads_iff {s : Tuner} (h : InEffect s)
    (hnodup : (s.overrides.map Prod.fst).Nodup) {a : ℕ} {v : Byte}
    (hwrite : (a, v) ∈ configWrites s.config)
    (howned : a ∉ [fscal3, fscal2, fscal1] ++ [freq2, freq1, freq0]) {p : Byte → Prop} (hp : p v) :
    p (s.chip a) ↔ ∀ w ∈ s.overrides, w.1 = a → p w.2 := by
  rw [h.chip_eq hwrite howned]
  constructor
  · rintro hread ⟨b, w⟩ hw rfl
    rwa [lookup_of_mem hnodup hw] at hread
  · intro hall
    cases hover : lookup s.overrides a with
    | none => exact hp
    | some w => exact hall _ (mem_of_lookup hover) rfl

/-- The read back of a radio that holds its registers fails over an override alone. -/
theorem InEffect.verify_iff {s : Tuner} (h : InEffect s)
    (hnodup : (s.overrides.map Prod.fst).Nodup) :
    s.verifyRegisters = true ↔ ∀ w ∈ s.overrides, ¬ Disagrees s.config w := by
  have hsync1 := h.reads_iff hnodup (a := sync1) (v := (s.config.sync_word >>> 8).setWidth 8)
    (by simp [configWrites]) (by decide) (p := fun b => b = (s.config.sync_word >>> 8).setWidth 8) rfl
  have hsync0 := h.reads_iff hnodup (a := sync0) (v := s.config.sync_word.setWidth 8)
    (by simp [configWrites]) (by decide) (p := fun b => b = s.config.sync_word.setWidth 8) rfl
  have hpktlen := h.reads_iff hnodup (a := pktlen) (v := s.config.capture_bytes)
    (by simp [configWrites]) (by decide) (p := fun b => b = s.config.capture_bytes) rfl
  have hmode := h.reads_iff hnodup (a := mdmcfg2) (v := s.config.sync_mode &&& 0x07)
    (by simp [configWrites]) (by decide)
    (p := fun b => b &&& 0x07 = s.config.sync_mode &&& 0x07) (by rw [BitVec.and_assoc, BitVec.and_self])
  have htest2 := h.reads_iff hnodup (a := test2) (v := 0x81) (by simp [configWrites]) (by decide)
    (p := fun b => b = 0x81) rfl
  have hfoccfg : s.overrides = [] → s.chip foccfg = 0x37 := by
    intro hempty
    rw [h.chip_eq (a := foccfg) (v := 0x37) (by simp [configWrites]) (by decide), hempty]
    rfl
  have hlast : (decide (0 < s.overrides.length) || s.chip foccfg == 0x37) = true := by
    cases hcase : s.overrides with
    | nil => simp [hfoccfg hcase]
    | cons => simp
  simp only [Tuner.verifyRegisters, hlast, Bool.and_true, Bool.and_eq_true, beq_iff_eq, hsync1,
    hsync0, hpktlen, hmode, htest2, Disagrees, not_or, not_and, not_not]
  exact ⟨fun hall w hw => ⟨hall.1.1.1.1 w hw, hall.1.1.1.2 w hw, hall.1.1.2 w hw, hall.1.2 w hw,
    hall.2 w hw⟩, fun hall => ⟨⟨⟨⟨fun w hw => (hall w hw).1, fun w hw => (hall w hw).2.1⟩,
    fun w hw => (hall w hw).2.2.1⟩, fun w hw => (hall w hw).2.2.2.1⟩,
    fun w hw => (hall w hw).2.2.2.2⟩⟩

theorem verify_of_lost {defaults : ℕ → Byte} (hlost : defaults test2 ≠ 0x81) {s : Tuner}
    (h : s.chip test2 = defaults test2) : s.verifyRegisters = false := by
  have hne : (s.chip test2 == 0x81) = false := beq_false_of_ne (h ▸ hlost)
  simp only [Tuner.verifyRegisters, hne, Bool.and_false, Bool.false_and]

theorem verify_sync {s : Tuner} (h : s.verifyRegisters = true) {a : ℕ} (ha : a ∈ [sync1, sync0])
    {v : Byte} (hv : lookup (configWrites s.config) a = some v) : s.chip a = v := by
  simp only [Tuner.verifyRegisters, Bool.and_eq_true, beq_iff_eq] at h
  simp only [List.mem_cons, List.not_mem_nil, or_false] at ha
  rcases ha with rfl | rfl
  · obtain rfl : (s.config.sync_word >>> 8).setWidth 8 = v := Option.some.inj hv
    exact h.1.1.1.1.1
  · obtain rfl : s.config.sync_word.setWidth 8 = v := Option.some.inj hv
    exact h.1.1.1.1.2

/-- Whatever became of the radio, the next read back that it answers finds it, as long as the
sync word is not overridden. -/
theorem verify_inEffect {defaults : ℕ → Byte} (hlost : defaults test2 ≠ 0x81) {faulty : Bool}
    {s : Tuner} (h : Kept defaults faulty s) (hrequested : s.requested = false)
    (hpending : s.pending = false)
    (hsync : faulty = false ∨ ∀ w ∈ s.overrides, w.1 ∉ [sync1, sync0]) :
    InEffect (s.step defaults (.verify true .configured)).1 := by
  have hprogrammed := configure_inEffect h.table.nodup
  rw [Tuner.step]
  cases hread : s.verifyRegisters with
  | false => exact hprogrammed
  | true =>
      rcases h.settled hrequested hpending with heffect | ⟨hfaulty, heffect | hreset⟩
      · exact heffect
      · have hplain := hsync.resolve_left (by rw [hfaulty]; decide)
        intro a howned v hv
        by_cases ha : a ∈ [sync1, sync0]
        · have hnone : lookup s.overrides a = none := by
            rw [lookup_eq_none_iff]
            intro hmem
            obtain ⟨w, hw, rfl⟩ := List.mem_map.mp hmem
            exact hplain w hw ha
          have hvalue : (lookup s.overrides a).or (lookup (configWrites s.config) a) = some v := hv
          rw [hnone, Option.none_or] at hvalue
          exact verify_sync hread ha hvalue
        · exact heffect a ha howned v hv
      · exact Bool.noConfusion (hread.symm.trans (verify_of_lost hlost hreset))

theorem reprograms_iff (defaults : ℕ → Byte) (s : Tuner) (outcome : Outcome) :
    (s.step defaults (.verify true outcome)).2 = true ↔ s.verifyRegisters = false := by
  rw [Tuner.step]
  cases s.verifyRegisters <;> simp

/-- With no change of the settings waiting, a radio that keeps its power and its sync word holds
what the settings and the overrides say, whatever was tuned, scanned, reset and read back
before. The read back programs it again only over an override of a register it looks at. A radio
that failed meanwhile is found and programmed by the next read back it answers. -/
theorem registers_in_effect (defaults : ℕ → Byte) (hlost : defaults test2 ≠ 0x81)
    (config : RadioConfig) (faulty : Bool) (es : List TunerEvent)
    (hes : ∀ e ∈ es, Allowed faulty e) :
    let s := (Machine.run (Tuner.step defaults) (Tuner.boot defaults config) es).1
    s.overrides.length ≤ overrideSlots ∧ (s.overrides.map Prod.fst).Nodup ∧
      (s.requested = false → s.pending = false →
        ((faulty = false ∨ ∀ w ∈ s.overrides, w.1 ∉ [sync1, sync0]) →
          InEffect (s.step defaults (.verify true .configured)).1) ∧
        (faulty = false → InEffect s ∧ ∀ outcome,
          ((s.step defaults (.verify true outcome)).2 = true ↔
            ∃ w ∈ s.overrides, Disagrees s.config w))) := by
  have hkept := Machine.admitted_invariant (C := fun _ => Allowed faulty)
    (P := Kept defaults faulty) (fun s e he h => kept_step s e he h)
    (boot_kept defaults faulty config) (Machine.admitted_of_mem (fun _ e he => hes e he) _)
  intro s
  refine ⟨hkept.table.slots, hkept.table.nodup, fun hrequested hpending =>
    ⟨verify_inEffect hlost hkept hrequested hpending, ?_⟩⟩
  rintro rfl
  have heffect : InEffect s :=
    (hkept.settled hrequested hpending).resolve_right (fun h => Bool.noConfusion h.1)
  refine ⟨heffect, fun outcome => ?_⟩
  rw [reprograms_iff, ← Bool.not_eq_true, heffect.verify_iff hkept.table.nodup]
  simp

/-- A sync word that was overridden is programmed again at each read back, and a radio that lost
its power is programmed by the next. -/
theorem registers_in_effect_overriddenSync :
    (let s := (Machine.run (Tuner.step (fun _ => 0)) (Tuner.boot (fun _ => 0) {})
      [.tune (.register sync1 0x00), .takeRequest, .configure .configured]).1
    InEffect s ∧ (s.step (fun _ => 0) (.verify true .configured)).2 = true) ∧
    InEffect ((Machine.run (Tuner.step (fun _ => 0)) (Tuner.boot (fun _ => 0) {})
      [.brownOut, .verify true (.mismatch 0 0)]).1.step (fun _ => 0)
        (.verify true .configured)).1 := by
  constructor
  · intro s
    have h := (registers_in_effect (fun _ => 0) (by decide) {} false
      [.tune (.register sync1 0x00), .takeRequest, .configure .configured]
      (by simp [Allowed])).2.2 rfl rfl
    exact ⟨(h.2 rfl).1, ((h.2 rfl).2 .configured).mpr ⟨(sync1, 0x00), List.mem_singleton.mpr rfl,
      Or.inl ⟨rfl, by decide⟩⟩⟩
  · exact ((registers_in_effect (fun _ => 0) (by decide) {} true
      [.brownOut, .verify true (.mismatch 0 0)] (by simp [Allowed])).2.2 rfl rfl).1
      (Or.inr (by rintro w ⟨⟩))

/-- A change of the settings that the radio does not answer is lost: the request is down, the
registers stay as they are, and a read back that passed before and looks at none of the changed
settings passes again. -/
theorem missed_request (defaults : ℕ → Byte) (s : Tuner) (hz : BitVec 32) :
    let t := (Machine.run (Tuner.step defaults) s
      [.tune (.frequency hz), .takeRequest, .configure .silent]).1
    t.requested = false ∧ t.pending = false ∧ t.config.frequency_hz = hz ∧ t.chip = s.chip ∧
      t.verifyRegisters = s.verifyRegisters :=
  ⟨rfl, rfl, rfl, rfl, rfl⟩

end InsteonRf.Cc1101
