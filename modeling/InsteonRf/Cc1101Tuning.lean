import InsteonRf.Cc1101Registers

/-!
# What the CC1101 is tuned to

The driver turns a frequency, a bandwidth, a data rate and a deviation into register values. The
registers are read here by the formulas of the chip, and compared with what was asked for.
-/
namespace InsteonRf.Cc1101
open OrderedDict

/-- The carrier: `FREQ * f_xtal / 2^16`. -/
def carrierHz (chip : ℕ → Byte) : ℚ :=
  ((chip freq2).toNat * 65536 + (chip freq1).toNat * 256 + (chip freq0).toNat : ℕ) *
    (xtalHz / 65536)

def filterCode (chip : ℕ → Byte) : ℕ × ℕ :=
  ((chip mdmcfg4).toNat / 64, (chip mdmcfg4).toNat / 16 % 4)

/-- The data rate: `(256 + M) * 2^E * f_xtal / 2^28`. -/
def rateHz (em : ℕ × ℕ) : ℚ := (256 + em.2) * 2 ^ em.1 * xtalHz / 268435456

def rateCode (chip : ℕ → Byte) : ℕ × ℕ := ((chip mdmcfg4).toNat % 16, (chip mdmcfg3).toNat)

def deviationCode (chip : ℕ → Byte) : ℕ × ℕ := ((chip deviatn).toNat / 16, (chip deviatn).toNat % 16)

theorem freqWord_near (hz : ℕ) : |(freqWord hz : ℚ) * (xtalHz / 65536) - hz| ≤ xtalHz / 131072 := by
  have hpos : 0 < 2 * xtalHz := by decide
  have hlow : freqWord hz * (2 * xtalHz) ≤ 2 * (hz * 65536) + xtalHz :=
    Nat.div_mul_le_self _ _
  have hhigh : 2 * (hz * 65536) + xtalHz < (freqWord hz + 1) * (2 * xtalHz) := by
    rw [← Nat.div_lt_iff_lt_mul hpos]
    exact Nat.lt_succ_self _
  rw [xtalHz] at hlow hhigh ⊢
  rw [abs_le]
  push_cast
  have hlow' : (freqWord hz : ℚ) * (2 * 26000000) ≤ 2 * (hz * 65536) + 26000000 := by
    exact_mod_cast hlow
  have hhigh' : 2 * ((hz : ℚ) * 65536) + 26000000 < (freqWord hz + 1) * (2 * 26000000) := by
    exact_mod_cast hhigh
  constructor <;> linarith

theorem freqWord_lt (hz : BitVec 32) : freqWord hz.toNat < 2 ^ 24 := by
  have hbound := hz.isLt
  rw [freqWord, xtalHz]
  omega

theorem frequency_bytes {w : ℕ} (h : w < 2 ^ 24) :
    ((BitVec.ofNat 32 w >>> 16).setWidth 8).toNat * 65536 +
        ((BitVec.ofNat 32 w >>> 8).setWidth 8).toNat * 256 + ((BitVec.ofNat 32 w).setWidth 8).toNat =
      w := by
  simp only [BitVec.toNat_setWidth, BitVec.toNat_ushiftRight, BitVec.toNat_ofNat,
    Nat.shiftRight_eq_div_pow]
  omega

theorem mem_filterSettings {em : ℕ × ℕ} (h : em ∈ filterSettings) : em.1 < 4 ∧ em.2 < 4 := by
  revert em
  decide

theorem chooseFilter_mem (bandwidth_hz : ℚ) : chooseFilter bandwidth_hz ∈ filterSettings := by
  rw [chooseFilter]
  cases h : Selection.leastOn (fun em => bandwidth_hz ≤ filterHz em) filterHz filterSettings with
  | none => decide
  | some em => exact (Selection.leastOn_spec h).1

theorem filterHz_le_widest {em : ℕ × ℕ} (h : em ∈ filterSettings) : filterHz em ≤ filterHz (0, 0) := by
  revert em
  decide +kernel

/-- The filter lets the bandwidth through and is the narrowest that does, unless none does. -/
def FilterFits (bandwidth_hz : ℚ) (em : ℕ × ℕ) : Prop :=
  (bandwidth_hz ≤ filterHz em ∨ ∀ em' ∈ filterSettings, filterHz em' < bandwidth_hz ∧ filterHz em' ≤ filterHz em) ∧
    ∀ em' ∈ filterSettings, bandwidth_hz ≤ filterHz em' → filterHz em ≤ filterHz em'

theorem chooseFilter_fits (bandwidth_hz : ℚ) : FilterFits bandwidth_hz (chooseFilter bandwidth_hz) := by
  rw [chooseFilter]
  cases h : Selection.leastOn (fun em => bandwidth_hz ≤ filterHz em) filterHz filterSettings with
  | none =>
      have hnone := Selection.leastOn_eq_none_iff.mp h
      exact ⟨Or.inr fun em hem => ⟨not_le.mp (hnone em hem), filterHz_le_widest hem⟩,
        fun em hem hfits => absurd hfits (hnone em hem)⟩
  | some em =>
      obtain ⟨-, hfits, hleast⟩ := Selection.leastOn_spec h
      exact ⟨Or.inl hfits, hleast⟩

theorem chooseRate_eq : chooseRate = (8, 112) := by decide +kernel

theorem chooseDeviation_eq : chooseDeviation = (5, 4) := by decide +kernel

theorem rate_near : |rateHz chooseRate - bitrate| < 1 := by
  rw [chooseRate_eq, rateHz, bitrate, xtalHz]
  norm_num [abs_lt]

/-- No deviation of the chip is nearer to Insteon's. -/
theorem deviation_nearest : ∀ em ∈ (List.range 8 ×ˢ List.range 8),
    |deviationOf chooseDeviation - deviationHz| ≤ |deviationOf em - deviationHz| := by
  rw [chooseDeviation_eq]
  decide +kernel

theorem InEffect.chip_eq_of_free {s : Tuner} (h : InEffect s) {a : ℕ} {v : Byte}
    (hwrite : lookup (configWrites s.config) a = some v) (hfree : lookup s.overrides a = none)
    (hcal : a ∉ [fscal3, fscal2, fscal1]) : s.chip a = v := by
  refine h a ⟨hcal, fun _ => hfree⟩ v ?_
  rw [desired, hfree, Option.none_or]
  exact hwrite

theorem carrier_of_inEffect {s : Tuner} (h : InEffect s)
    (hfree : ∀ a ∈ [freq2, freq1, freq0], lookup s.overrides a = none) :
    |carrierHz s.chip - s.config.frequency_hz.toNat| ≤ xtalHz / 131072 := by
  have h2 := h.chip_eq_of_free (a := freq2) rfl (hfree _ (by simp)) (by decide)
  have h1 := h.chip_eq_of_free (a := freq1) rfl (hfree _ (by simp)) (by decide)
  have h0 := h.chip_eq_of_free (a := freq0) rfl (hfree _ (by simp)) (by decide)
  rw [carrierHz, h2, h1, h0, frequency_bytes (freqWord_lt _)]
  exact freqWord_near _

theorem mdmcfg4_parts {e m r : ℕ} (he : e < 4) (hm : m < 4) (hr : r < 16) :
    (BitVec.ofNat 8 (e * 64 + m * 16 + r)).toNat / 64 = e ∧
      (BitVec.ofNat 8 (e * 64 + m * 16 + r)).toNat / 16 % 4 = m ∧
      (BitVec.ofNat 8 (e * 64 + m * 16 + r)).toNat % 16 = r := by
  rw [BitVec.toNat_ofNat]
  omega

theorem mdmcfg4_of_inEffect {s : Tuner} (h : InEffect s)
    (hfree : lookup s.overrides mdmcfg4 = none) :
    filterCode s.chip = chooseFilter s.config.bandwidth_hz.toNat ∧
      (s.chip mdmcfg4).toNat % 16 = chooseRate.1 := by
  have hchip := h.chip_eq_of_free (a := mdmcfg4) rfl hfree (by decide)
  have hcode := mem_filterSettings (chooseFilter_mem (s.config.bandwidth_hz.toNat : ℚ))
  have hparts := mdmcfg4_parts hcode.1 hcode.2
    (show chooseRate.1 < 16 by rw [chooseRate_eq]; decide)
  rw [filterCode, hchip]
  exact ⟨Prod.ext hparts.1 hparts.2.1, hparts.2.2⟩

/-- Where no override is in the way, the radio's registers mean what was asked for: the carrier
within half a step of the frequency, the narrowest filter for the bandwidth, the data rate within
one bit a second, and the deviation nearest to Insteon's. -/
theorem tuned_as_asked (s : Tuner) (h : InEffect s)
    (hfree : ∀ a ∈ [freq2, freq1, freq0, mdmcfg4, mdmcfg3, deviatn], lookup s.overrides a = none) :
    |carrierHz s.chip - s.config.frequency_hz.toNat| ≤ xtalHz / 131072 ∧
      FilterFits s.config.bandwidth_hz.toNat (filterCode s.chip) ∧
      |rateHz (rateCode s.chip) - bitrate| < 1 ∧
      ∀ em ∈ List.range 8 ×ˢ List.range 8,
        |deviationOf (deviationCode s.chip) - deviationHz| ≤ |deviationOf em - deviationHz| := by
  obtain ⟨hfilter, hexponent⟩ := mdmcfg4_of_inEffect h (hfree _ (by simp))
  have hmantissa := h.chip_eq_of_free (a := mdmcfg3) rfl (hfree _ (by simp)) (by decide)
  have hdeviatn := h.chip_eq_of_free (a := deviatn) rfl (hfree _ (by simp)) (by decide)
  have hrate : rateCode s.chip = chooseRate := by
    rw [rateCode, hexponent, hmantissa, chooseRate_eq]
    rfl
  have hdeviation : deviationCode s.chip = chooseDeviation := by
    rw [deviationCode, hdeviatn, chooseDeviation_eq]
    rfl
  refine ⟨carrier_of_inEffect h (fun a ha => hfree a (List.mem_append_left _ ha)), ?_, ?_, ?_⟩
  · rw [hfilter]
    exact chooseFilter_fits _
  · rw [hrate]
    exact rate_near
  · rw [hdeviation]
    exact deviation_nearest

theorem tuned_as_asked_booted :
    let s := Tuner.boot (fun _ => 0) {}
    |carrierHz s.chip - 914990000| ≤ xtalHz / 131072 ∧ FilterFits 203000 (filterCode s.chip) := by
  intro s
  have hkept := boot_kept (fun _ => 0) false {}
  have heffect : InEffect s :=
    (hkept.settled rfl rfl).resolve_right (fun hbrown => Bool.noConfusion hbrown.1)
  obtain ⟨hcarrier, hfilter, -⟩ := tuned_as_asked s heffect (fun _ _ => rfl)
  exact ⟨by exact_mod_cast hcarrier, by exact_mod_cast hfilter⟩

end InsteonRf.Cc1101
