import InsteonRf.DspSync
import InsteonRf.Lib.Selection
import InsteonRf.Lib.Spans

/-!
# Bursts of a capture

Where the envelope of a capture is above the squelch, syncs are looked for and demodulated in the
order of their times, each over a grid of shifts and symbol rates of which the most confident is
kept. A burst is cut where its packet ends, and no sync inside of it is demodulated again. What is
floating point here, the scores of the sync search, the carrier offsets and the levels of the two
tones, is a parameter of the capture.
-/
namespace InsteonRf.Dsp
open Rounding Greedy Selection

/-- A place in a segment of this size, from a time in samples. -/
def clip (size : ℕ) (t : ℚ) : ℕ := min size (rint t).toNat

/-- `_ml_from_sums`: the soft values of the symbols from `start` on, `level` being the magnitude of
what a tone sums up to over a range of samples. -/
def mlFromSums (level : Bool → ℕ → ℕ → ℚ) (size : ℕ) (start sps : ℚ) (nsym : Option ℕ) : List ℚ :=
  let avail := ⌊(size - start) / sps⌋.toNat
  (List.range (nsym.elim avail (min · avail))).map fun (k : ℕ) =>
    let lo := clip size (start + k * sps)
    let hi := clip size (start + (k + 1) * sps)
    let width := max (hi - lo) 1
    let sp := level true lo hi / width
    let sm := level false lo hi / width
    (sp - sm) / max (max sp sm) (1 / 10 ^ 9)

def rateCandidates : List ℚ := (List.range 11).map fun (k : ℕ) => ((k : ℚ) - 5) / 1000

/-- What is made of a sync under one shift and one symbol rate. -/
structure Trial where
  soft : List ℚ
  sps : ℚ
  shift : ℤ
  deriving DecidableEq, Repr

/-- The mean certainty of the symbols that are judged, all of them where `judge` is `none`. -/
def Trial.confidence (judge : Option ℕ) (t : Trial) : ℚ :=
  let judged := judge.elim t.soft t.soft.take
  (judged.map (|·|)).sum / judged.length

def Trial.bits (t : Trial) : Bits := t.soft.map fun v => decide (0 < v)

structure Signal where
  /-- The scores of `find_sync` on the block discriminator. -/
  score : ℕ → ℚ
  /-- The scores of `_tone_sync` under a carrier offset. -/
  toneScore : ℤ → ℕ → ℚ
  /-- `_template_cfo` for a start and a polarity. -/
  cfo : ℕ → ℤ → ℚ
  /-- `_tone_sums` from a sample on, under a carrier offset: the magnitude for one of the tones
  over a range of samples. -/
  level : ℕ → ℚ → Bool → ℕ → ℕ → ℚ

structure Demod where
  sample_rate : ℕ
  baud : ℚ
  min_bits : ℕ := 64
  refine_rate : Bool := true
  sync_threshold : ℚ := 9 / 20
  argsort : (ℕ → ℚ) → List ℕ → List ℕ

structure Burst where
  bits : Bits
  soft : List ℚ
  start : ℤ
  sps : ℚ
  cfo_hz : ℚ
  polarity : ℤ
  header_index : Option ℕ
  timestamp : Option ℚ
  clipped : ℚ := 0
  deriving DecidableEq

namespace Demod

variable (d : Demod)

def sps : ℚ := d.sample_rate / d.baud

def syncDecim : ℕ := max 1 (d.sample_rate / 300000)

def blockCount (size : ℕ) : ℕ := if size / d.syncDecim < 2 then 0 else size / d.syncDecim - 1

def syncArgs : SyncArgs :=
  { sps := d.sps, decim := d.syncDecim, threshold := d.sync_threshold, predecimated := true }

/-- The syncs of a segment; the weak ones are looked for only where there are no others. -/
def syncs (sig : Signal) (size : ℕ) : List Sync :=
  match d.syncArgs.findSync (d.blockCount size) sig.score d.argsort with
  | [] =>
      if minPacketSymbols * d.sps ≤ size then
        toneSync size d.sps d.syncDecim d.sync_threshold sig.toneScore d.argsort
      else []
  | found => found

def carrier (sig : Signal) (synced : Bool) (s : Sync) : ℚ :=
  if synced then sig.cfo s.start s.polarity else 0

/-- The samples a sync is demodulated from: the first, and how many. -/
def piece (size : ℕ) (synced : Bool) (s : Sync) : ℕ × ℕ :=
  if synced then
    let base := s.start - d.syncDecim
    (base, min (size - base)
      (⌈(maxPacketSymbols : ℚ) * d.sps * (101 / 100)⌉.toNat + 2 * d.syncDecim + 2))
  else (0, size)

def shifts (synced : Bool) : List ℤ :=
  if synced then (List.range (d.syncDecim + 1)).map fun (k : ℕ) => 2 * (k : ℤ) - d.syncDecim else [0]

def rates : List ℚ := if d.refine_rate then rateCandidates else [0]

/-- A sync under one shift and one rate, unless there are no symbols from there on. -/
def trial (sig : Signal) (size : ℕ) (synced : Bool) (s : Sync) (shift : ℤ) (delta : ℚ) :
    Option Trial :=
  let base := (d.piece size synced s).1
  let soft := mlFromSums (sig.level base (carrier sig synced s)) (d.piece size synced s).2
    ((s.start + shift - base : ℤ) : ℚ) (d.sps * (1 + delta))
    (if synced then some maxPacketSymbols else none)
  if soft = [] then none else some { soft, sps := d.sps * (1 + delta), shift }

def trials (sig : Signal) (size : ℕ) (synced : Bool) (s : Sync) : List Trial :=
  (d.shifts synced).flatMap fun shift =>
    if (s.start : ℤ) + shift - (d.piece size synced s).1 < 0 then []
    else d.rates.filterMap (d.trial sig size synced s shift)

/-- How many symbols the trials are compared on. -/
def judge (synced : Bool) : Option ℕ :=
  if synced then some (headerSymbolInTemplate + minPacketSymbols) else none

/-- The most confident trial of a sync, of several the first. -/
def best (sig : Signal) (size : ℕ) (synced : Bool) (s : Sync) : Option Trial :=
  maxOn (Trial.confidence (judge synced)) (d.trials sig size synced s)

end Demod

def packetSymbols (bits : Bits) (polarity : ℤ) : ℕ :=
  let logical := if polarity < 0 then invertBits bits else bits
  let (data, _) := decodeFrames logical (headerSymbolInTemplate + markerOffset)
  let frames := if data ≠ [] ∧ ¬ isExtended (firstByte data) then stdLen else extLen
  headerSymbolInTemplate + markerOffset + frameBits * frames + 8

/-- How many symbols of a trial belong to the packet of its sync. -/
def keepSymbols (synced : Bool) (s : Sync) (t : Trial) : ℕ :=
  if synced then packetSymbols t.bits s.polarity else t.bits.length

/-- Up to when no other sync is demodulated. -/
def busyUntil (s : Sync) (t : Trial) : ℚ :=
  s.start + t.shift + ((packetSymbols t.bits s.polarity : ℚ) - 8) * t.sps

/-- Tuples are sorted by their first, second and third values. -/
def Sync.le (s t : Sync) : Bool :=
  decide (s.start < t.start ∨ s.start = t.start ∧
    (s.score < t.score ∨ s.score = t.score ∧ s.polarity ≤ t.polarity))

namespace Demod

variable (d : Demod)

def burstOf (sig : Signal) (synced : Bool) (offset : ℕ) (timestamp : Option ℚ) (s : Sync)
    (t : Trial) : Burst :=
  { bits := t.bits.take (keepSymbols synced s t)
    soft := t.soft.take (keepSymbols synced s t)
    start := offset + (s.start + t.shift)
    sps := t.sps
    cfo_hz := carrier sig synced s
    polarity := s.polarity
    header_index := if synced then some headerSymbolInTemplate else none
    timestamp }

def demodSyncs (sig : Signal) (size : ℕ) (synced : Bool) (offset : ℕ) (timestamp : Option ℚ) :
    ℚ → List Sync → List Burst
  | _, [] => []
  | busy, s :: l =>
      if (s.start : ℚ) < busy then demodSyncs sig size synced offset timestamp busy l
      else
        match d.best sig size synced s with
        | none => demodSyncs sig size synced offset timestamp busy l
        | some t =>
            let burst := burstOf sig synced offset timestamp s t
            let rest := demodSyncs sig size synced offset timestamp
              (if synced then busyUntil s t else busy) l
            if burst.bits.length < d.min_bits then rest else burst :: rest

def demodBurst (sig : Signal) (size offset : ℕ) (timestamp : Option ℚ) : List Burst :=
  match d.syncs sig size with
  -- without a frame lock the whole segment is demodulated from its start
  | [] => d.demodSyncs sig size false offset timestamp (-1) [{ start := 0, score := 0, polarity := 1 }]
  | found => d.demodSyncs sig size true offset timestamp (-1) (found.mergeSort Sync.le)

end Demod

/-- Where a mask becomes true, after a value `prev` at place `i - 1`. -/
def runStarts (prev : Bool) (i : ℕ) : List Bool → List ℕ
  | [] => []
  | b :: l => (if b && !prev then [i] else []) ++ runStarts b (i + 1) l

def runStops (prev : Bool) (i : ℕ) : List Bool → List ℕ
  | [] => if prev then [i] else []
  | b :: l => (if !b && prev then [i] else []) ++ runStops b (i + 1) l

def runs (mask : List Bool) : List (ℕ × ℕ) := (runStarts false 0 mask).zip (runStops false 0 mask)

/-- A capture: which samples are above the squelch, which at a rail, and the numbers of a
segment. -/
structure Samples where
  hot : List Bool
  rail : List Bool
  segment : ℕ → ℕ → Signal

/-- The share of the samples of a burst that are at a rail. -/
def Samples.clipped (x : Samples) (b : Burst) : ℚ :=
  let hi := min x.rail.length (b.start + ⌊b.bits.length * b.sps⌋).toNat
  let part := (x.rail.take hi).drop b.start.toNat
  if b.start < hi then part.count true / part.length else b.clipped

/-- `demodulate_bursts` with the matched filter. -/
def Demod.demodulateBursts (d : Demod) (x : Samples) (timestamp t0 : Option ℚ) : List Burst :=
  if x.hot.length < 8 then []
  else
    let out := (runs x.hot).flatMap fun (lo, hi) =>
      if ((hi - lo : ℕ) : ℚ) < d.sps * 4 then []
      else d.demodBurst (x.segment lo hi) (hi - lo) lo timestamp
    let out := match t0 with
      | none => out
      | some t0 => out.map fun (b : Burst) => { b with timestamp := some (t0 + b.start / d.sample_rate) }
    out.map fun (b : Burst) => { b with clipped := x.clipped b }

open Spans in
theorem zip_runs (l : List Bool) (i : ℕ) :
    (∀ lo ≤ i, Within lo ((runStarts false i l).zip (runStops false i l)) (i + l.length)) ∧
    (∀ s ≤ i, ∀ lo ≤ s,
      Within lo ((s :: runStarts true i l).zip (runStops true i l)) (i + l.length)) := by
  induction l generalizing i with
  | nil =>
      refine ⟨fun lo hlo => hlo, fun s hs lo hlo => ⟨hlo, hs, le_rfl⟩⟩
  | cons b l ih =>
      obtain ⟨hclosed, hopen⟩ := ih (i + 1)
      have hlen : i + (b :: l).length = i + 1 + l.length := by
        rw [List.length_cons]
        ring
      rw [hlen]
      cases b with
      | false =>
          refine ⟨fun lo hlo => hclosed lo (by omega), fun s hs lo hlo => ?_⟩
          exact ⟨hlo, hs, hclosed i (by omega)⟩
      | true =>
          refine ⟨fun lo hlo => hopen i (by omega) lo hlo, fun s hs lo hlo => ?_⟩
          exact hopen s (by omega) lo hlo

theorem getElem?_cons_from (b : Bool) (l : List Bool) (i n : ℕ) :
    (i ≤ n ∧ (b :: l)[n - i]? = some true) ↔
      (n = i ∧ b = true) ∨ (i + 1 ≤ n ∧ l[n - (i + 1)]? = some true) := by
  rcases Nat.lt_trichotomy n i with hlt | rfl | hgt
  · omega
  · simp
  · obtain ⟨k, rfl⟩ := Nat.exists_eq_add_of_lt hgt
    have hone : i + k + 1 - i = (i + k + 1 - (i + 1)) + 1 := by omega
    rw [hone, List.getElem?_cons_succ]
    exact ⟨fun h => Or.inr ⟨by omega, h.2⟩,
      fun h => h.elim (fun hn => by omega) (fun hrest => ⟨by omega, hrest.2⟩)⟩

open Spans in
theorem points_zip_runs (l : List Bool) (i n : ℕ) :
    (n ∈ points ((runStarts false i l).zip (runStops false i l)) ↔
      i ≤ n ∧ l[n - i]? = some true) ∧
    (∀ s ≤ i, n ∈ points ((s :: runStarts true i l).zip (runStops true i l)) ↔
      (s ≤ n ∧ n < i) ∨ (i ≤ n ∧ l[n - i]? = some true)) := by
  induction l generalizing i with
  | nil => simp [runStarts, runStops]
  | cons b l ih =>
      obtain ⟨hclosed, hopen⟩ := ih (i + 1)
      rw [getElem?_cons_from]
      cases b with
      | false =>
          have hstarts : runStarts true i (false :: l) = runStarts false (i + 1) l := rfl
          have hstops : runStops true i (false :: l) = i :: runStops false (i + 1) l := rfl
          refine ⟨hclosed.trans (by simp), fun s hs => ?_⟩
          rw [hstarts, hstops, List.zip_cons_cons, points_cons, Set.mem_union, Set.mem_Ico, hclosed]
          simp
      | true =>
          have hfirst : (i ≤ n ∧ n < i + 1) ↔ n = i := by omega
          refine ⟨(hopen i (by omega)).trans (by rw [hfirst]; simp), fun s hs => ?_⟩
          have hlast : (s ≤ n ∧ n < i + 1) ↔ (s ≤ n ∧ n < i) ∨ n = i := by omega
          refine (hopen s (by omega)).trans ?_
          rw [hlast, or_assoc]
          simp

/-- The runs of a mask follow each other and hold exactly the places where it is true. -/
theorem runs_spec (mask : List Bool) :
    Spans.Within 0 (runs mask) mask.length ∧
      Spans.points (runs mask) = {n | mask[n]? = some true} := by
  have hwithin := (zip_runs mask 0).1 0 le_rfl
  rw [Nat.zero_add] at hwithin
  refine ⟨hwithin, ?_⟩
  ext n
  exact (points_zip_runs mask 0 n).1.trans (by simp)

theorem length_mlFromSums {level : Bool → ℕ → ℕ → ℚ} {size : ℕ} {start sps : ℚ} {nsym : Option ℕ}
    (hsps : 0 < sps) (hne : mlFromSums level size start sps nsym ≠ []) :
    start + (mlFromSums level size start sps nsym).length * sps ≤ size := by
  have hcount : (mlFromSums level size start sps nsym).length ≤ ⌊(size - start) / sps⌋.toNat := by
    unfold mlFromSums
    rw [List.length_map, List.length_range]
    cases nsym with
    | none => exact le_rfl
    | some n => exact min_le_right _ _
  have hpos := List.length_pos_of_ne_nil hne
  have hfloor : (((mlFromSums level size start sps nsym).length : ℤ) : ℚ) ≤ (size - start) / sps := by
    rw [← Int.le_floor]
    omega
  rw [le_div_iff₀ hsps, Int.cast_natCast] at hfloor
  linarith

namespace Demod

variable {d : Demod} {sig : Signal} {size : ℕ} {synced : Bool} {s : Sync} {t : Trial}

/-- What holds of every trial: it begins inside the segment, near its sync, and ends inside. -/
structure Reads (d : Demod) (size : ℕ) (s : Sync) (t : Trial) : Prop where
  begins : 0 ≤ (s.start : ℤ) + t.shift
  near : -(d.syncDecim : ℤ) ≤ t.shift
  ends : ((s.start + t.shift : ℤ) : ℚ) + t.soft.length * t.sps ≤ size
  positive : 0 < t.sps
  paced : d.sps * (199 / 200) ≤ t.sps

theorem mem_shifts {shift : ℤ} (h : shift ∈ d.shifts synced) : -(d.syncDecim : ℤ) ≤ shift := by
  unfold shifts at h
  split_ifs at h with hsynced
  · obtain ⟨k, -, rfl⟩ := List.mem_map.mp h
    omega
  · rw [List.mem_singleton.mp h]
    omega

theorem mem_rates {delta : ℚ} (h : delta ∈ d.rates) : 199 / 200 ≤ 1 + delta := by
  unfold rates at h
  split_ifs at h
  · obtain ⟨k, -, rfl⟩ := List.mem_map.mp h
    have : (0 : ℚ) ≤ k := Nat.cast_nonneg k
    linarith
  · rw [List.mem_singleton.mp h]
    norm_num

theorem piece_within (d : Demod) (size : ℕ) (synced : Bool) (s : Sync) :
    (d.piece size synced s).1 + (d.piece size synced s).2 ≤ size ∨
    (d.piece size synced s).2 = 0 := by
  unfold piece
  split_ifs
  · simp only
    omega
  · exact Or.inl (Nat.zero_add size).le

theorem reads_of_mem_trials (hsps : 0 < d.sps) (h : t ∈ d.trials sig size synced s) :
    d.Reads size s t := by
  unfold trials at h
  obtain ⟨shift, hshift, h⟩ := List.mem_flatMap.mp h
  split_ifs at h with hneg
  · exact absurd h List.not_mem_nil
  · obtain ⟨delta, hdelta, h⟩ := List.mem_filterMap.mp h
    unfold trial at h
    simp only at h
    have hrate := mem_rates hdelta
    have htrial : 0 < d.sps * (1 + delta) := mul_pos hsps (by linarith)
    have hends := @length_mlFromSums
      (sig.level (d.piece size synced s).1 (carrier sig synced s)) (d.piece size synced s).2
      ((s.start + shift - (d.piece size synced s).1 : ℤ) : ℚ) (d.sps * (1 + delta))
      (if synced then some maxPacketSymbols else none) htrial
    generalize mlFromSums _ _ _ _ _ = soft at h hends
    split_ifs at h with hempty
    obtain rfl := Option.some.inj h
    have hend := hends hempty
    have hlen := List.length_pos_of_ne_nil hempty
    refine ⟨by simp only; omega, mem_shifts hshift, ?_, htrial,
      mul_le_mul_of_nonneg_left hrate hsps.le⟩
    have hspan : 0 < soft.length * (d.sps * (1 + delta)) :=
      mul_pos (Nat.cast_pos.mpr hlen) htrial
    have hat : (0 : ℚ) ≤ ((s.start + shift - (d.piece size synced s).1 : ℤ) : ℚ) :=
      Int.cast_nonneg (not_lt.mp hneg)
    rcases d.piece_within size synced s with hin | hzero
    · have hin : (((d.piece size synced s).1 + (d.piece size synced s).2 : ℕ) : ℚ) ≤ size :=
        Nat.cast_le.mpr hin
      push_cast at hin hend ⊢
      linarith
    · rw [hzero, Nat.cast_zero] at hend
      linarith

theorem reads_of_best (hsps : 0 < d.sps) (h : d.best sig size synced s = some t) :
    d.Reads size s t :=
  reads_of_mem_trials hsps (maxOn_mem h)

/-- The syncs that something was read from, each with its most confident trial. -/
def readable (d : Demod) (sig : Signal) (size : ℕ) (synced : Bool) (l : List Sync) :
    List (Sync × Trial) :=
  l.filterMap fun s => (d.best sig size synced s).map (Prod.mk s)

theorem mem_readable {l : List Sync} {r : Sync × Trial} :
    r ∈ d.readable sig size synced l ↔ r.1 ∈ l ∧ d.best sig size synced r.1 = some r.2 := by
  unfold readable
  rw [List.mem_filterMap]
  constructor
  · rintro ⟨s, hs, hr⟩
    obtain ⟨t, ht, rfl⟩ := Option.map_eq_some_iff.mp hr
    exact ⟨hs, ht⟩
  · rintro ⟨hs, ht⟩
    exact ⟨r.1, hs, by rw [ht]; rfl⟩

variable {offset : ℕ} {timestamp : Option ℚ}

def longEnough (d : Demod) (b : Burst) : Bool := decide (d.min_bits ≤ b.bits.length)

/-- The loop takes the syncs that do not begin inside of a packet already taken. -/
theorem demodSyncs_eq (busy : ℚ) (l : List Sync) :
    d.demodSyncs sig size true offset timestamp busy l =
      ((scan (fun r => (r.1.start : ℚ)) (fun r => busyUntil r.1 r.2) busy
        (d.readable sig size true l)).map
          (fun r => burstOf sig true offset timestamp r.1 r.2)).filter d.longEnough := by
  induction l generalizing busy with
  | nil => rfl
  | cons s l ih =>
      unfold demodSyncs readable
      cases hbest : d.best sig size true s with
      | none =>
          rw [List.filterMap_cons_none (by rw [hbest]; rfl)]
          split_ifs <;> exact ih busy
      | some t =>
          rw [List.filterMap_cons_some (by rw [hbest]; rfl)]
          unfold scan
          by_cases hbusy : (s.start : ℚ) < busy
          · rw [if_pos hbusy, if_pos hbusy]
            exact ih busy
          · rw [if_neg hbusy, if_neg hbusy]
            simp only [if_true, List.map_cons]
            by_cases hshort : (burstOf sig true offset timestamp s t).bits.length < d.min_bits
            · rw [if_pos hshort, List.filter_cons_of_neg (by simpa [longEnough] using hshort)]
              exact ih _
            · rw [if_neg hshort, List.filter_cons_of_pos (by simpa [longEnough] using hshort)]
              exact congrArg _ (ih _)

/-- A burst lies in a range of samples and is long enough to be handed on. -/
structure Lies (d : Demod) (lo hi : ℕ) (b : Burst) : Prop where
  begins : (lo : ℤ) ≤ b.start
  ends : b.start + b.bits.length * b.sps ≤ (hi : ℚ)
  soft : b.soft.length = b.bits.length
  long : d.min_bits ≤ b.bits.length
  positive : 0 < b.sps
  unmarked : b.clipped = 0

theorem burst_lies (hsps : 0 < d.sps) (hbest : d.best sig size synced s = some t)
    (hlong : d.min_bits ≤ (burstOf sig synced offset timestamp s t).bits.length) :
    d.Lies offset (offset + size) (burstOf sig synced offset timestamp s t) := by
  obtain ⟨hbegins, -, hends, hpos, -⟩ := reads_of_best hsps hbest
  refine ⟨by simp only [burstOf]; omega, ?_, by simp [burstOf, Trial.bits], hlong, hpos, rfl⟩
  have hcut : ((burstOf sig synced offset timestamp s t).bits.length : ℚ) * t.sps ≤
      t.soft.length * t.sps := by
    refine mul_le_mul_of_nonneg_right (Nat.cast_le.mpr ?_) hpos.le
    simp [burstOf, Trial.bits]
  simp only [burstOf] at hcut ⊢
  push_cast at hends ⊢
  linarith

/-- A packet ends, but for the last eight symbols of its burst, where the demodulator says it is
busy until. -/
theorem burst_before (sig : Signal) (offset : ℕ) (timestamp : Option ℚ) (s : Sync)
    (hpos : 0 < t.sps) :
    (burstOf sig true offset timestamp s t).start +
      (((burstOf sig true offset timestamp s t).bits.length : ℚ) - 8) * t.sps ≤
        offset + busyUntil s t := by
  have hkeep : ((burstOf sig true offset timestamp s t).bits.length : ℚ) ≤
      packetSymbols t.bits s.polarity := by
    refine Nat.cast_le.mpr ?_
    unfold burstOf keepSymbols
    rw [if_pos rfl]
    exact List.length_take_le _ _
  have hcut := mul_le_mul_of_nonneg_right (sub_le_sub_right hkeep 8) hpos.le
  unfold busyUntil
  simp only [burstOf] at hcut ⊢
  push_cast
  linarith

theorem packetSymbols_min (bits : Bits) (polarity : ℤ) :
    headerSymbolInTemplate + markerOffset + minPacketSymbols + 8 ≤ packetSymbols bits polarity := by
  unfold packetSymbols minPacketSymbols frameBits
  simp only
  split_ifs <;> simp only [stdLen, extLen] <;> omega

/-- A packet is longer than the shortest one that is looked for, at any of the rates tried. -/
theorem busyUntil_min (hsps : 0 < d.sps)
    (h : d.Reads size s t) : ((s.start + t.shift : ℤ) : ℚ) + minPacketSymbols * d.sps ≤ busyUntil s t := by
  have hcount : (380 : ℚ) ≤ (packetSymbols t.bits s.polarity : ℚ) - 8 := by
    have hmin : 388 ≤ packetSymbols t.bits s.polarity := packetSymbols_min t.bits s.polarity
    have hcast : (388 : ℚ) ≤ packetSymbols t.bits s.polarity := by exact_mod_cast hmin
    linarith
  have hspan := mul_le_mul hcount h.paced (by positivity) (by linarith)
  have hmin : (minPacketSymbols : ℚ) = 364 := by norm_num [minPacketSymbols]
  rw [busyUntil, hmin]
  push_cast
  linarith

theorem sorted_starts (l : List Sync) :
    (l.mergeSort Sync.le).Pairwise (fun s t => (s.start : ℚ) ≤ t.start) := by
  have hsorted : (l.mergeSort Sync.le).Pairwise (fun s t => s.le t = true) :=
    List.pairwise_mergeSort (fun s t u hst htu => by
      simp only [Sync.le, decide_eq_true_iff] at hst htu ⊢
      grind)
    (fun s t => by
      simp only [Sync.le, Bool.or_eq_true, decide_eq_true_iff]
      grind) l
  refine hsorted.imp fun {s t} h => Nat.cast_le.mpr ?_
  simp only [Sync.le, decide_eq_true_iff] at h
  omega

theorem readable_sorted (l : List Sync) :
    (d.readable sig size true (l.mergeSort Sync.le)).Pairwise
      (fun r r' => (r.1.start : ℚ) ≤ r'.1.start) := by
  unfold readable
  rw [List.pairwise_filterMap]
  refine (sorted_starts l).imp fun {s s'} hle r hr r' hr' => ?_
  obtain ⟨t, -, rfl⟩ := Option.map_eq_some_iff.mp hr
  obtain ⟨t', -, rfl⟩ := Option.map_eq_some_iff.mp hr'
  exact hle

/-- The bursts of a segment with syncs, from the last to the first step of the loop. -/
theorem demodBurst_synced (h : d.syncs sig size ≠ []) :
    d.demodBurst sig size offset timestamp =
      ((scan (fun r => (r.1.start : ℚ)) (fun r => busyUntil r.1 r.2) (-1)
        (d.readable sig size true ((d.syncs sig size).mergeSort Sync.le))).map
          (fun r => burstOf sig true offset timestamp r.1 r.2)).filter d.longEnough := by
  unfold demodBurst
  cases hsyncs : d.syncs sig size with
  | nil => exact absurd hsyncs h
  | cons s l => exact demodSyncs_eq _ _

theorem demodBurst_unsynced (offset : ℕ) (timestamp : Option ℚ) (h : d.syncs sig size = []) :
    d.demodBurst sig size offset timestamp = [] ∨
      ∃ s t, d.best sig size false s = some t ∧
        d.longEnough (burstOf sig false offset timestamp s t) = true ∧
        d.demodBurst sig size offset timestamp = [burstOf sig false offset timestamp s t] := by
  have hfree : ¬ (((0 : ℕ) : ℚ) < -1) := by norm_num
  unfold demodBurst
  rw [h]
  simp only
  unfold demodSyncs
  rw [if_neg hfree]
  cases hbest : d.best sig size false { start := 0, score := 0, polarity := 1 } with
  | none => exact Or.inl rfl
  | some t =>
      simp only
      by_cases hshort : (burstOf sig false offset timestamp
          { start := 0, score := 0, polarity := 1 } t).bits.length < d.min_bits
      · rw [if_pos hshort]
        exact Or.inl rfl
      · rw [if_neg hshort]
        exact Or.inr ⟨_, t, hbest, by simpa [longEnough] using hshort, rfl⟩

theorem demodBurst_lies (hsps : 0 < d.sps) :
    ∀ b ∈ d.demodBurst sig size offset timestamp, d.Lies offset (offset + size) b := by
  intro b hb
  by_cases hsyncs : d.syncs sig size = []
  · rcases demodBurst_unsynced offset timestamp hsyncs with
      hnone | ⟨s, t, hbest, hlong, hone⟩
    · rw [hnone] at hb
      exact absurd hb List.not_mem_nil
    · rw [hone] at hb
      obtain rfl := List.mem_singleton.mp hb
      exact burst_lies hsps hbest (of_decide_eq_true hlong)
  · rw [demodBurst_synced hsyncs] at hb
    obtain ⟨hb, hlong⟩ := List.mem_filter.mp hb
    obtain ⟨r, hr, rfl⟩ := List.mem_map.mp hb
    exact burst_lies hsps (mem_readable.mp (scan_sublist.subset hr)).2 (of_decide_eq_true hlong)

/-- Of two bursts of a capture the packet of the first ends where the second begins, to within a
block; and unless a block is as long as a packet, the first begins first. -/
structure Follows (d : Demod) (b c : Burst) : Prop where
  ends : b.start + ((b.bits.length : ℚ) - 8) * b.sps ≤ c.start + d.syncDecim
  starts : (d.syncDecim : ℚ) ≤ minPacketSymbols * d.sps → b.start ≤ c.start

theorem demodBurst_apart (hsps : 0 < d.sps) :
    (d.demodBurst sig size offset timestamp).Pairwise d.Follows := by
  by_cases hsyncs : d.syncs sig size = []
  · rcases demodBurst_unsynced offset timestamp hsyncs with
      hnone | ⟨s, t, -, -, hone⟩
    · rw [hnone]
      exact List.Pairwise.nil
    · rw [hone]
      exact List.pairwise_singleton _ _
  · rw [demodBurst_synced hsyncs]
    refine List.Pairwise.sublist List.filter_sublist (List.pairwise_map.mpr ?_)
    refine (scan_disjoint (readable_sorted _)).imp_of_mem fun {r r'} hr hr' hle => ?_
    have hread := mem_readable.mp (scan_sublist.subset hr)
    have hread' := mem_readable.mp (scan_sublist.subset hr')
    have hreads := reads_of_best hsps hread.2
    have hnear : (-(d.syncDecim : ℤ) : ℚ) ≤ r'.2.shift := by
      exact_mod_cast (reads_of_best hsps hread'.2).near
    constructor
    · refine (burst_before sig offset timestamp r.1 hreads.positive).trans ?_
      simp only [burstOf]
      push_cast at hnear ⊢
      linarith
    · intro hblock
      have hlong := busyUntil_min hsps hreads
      have hstart : ((r.1.start + r.2.shift : ℤ) : ℚ) ≤ ((r'.1.start + r'.2.shift : ℤ) : ℚ) := by
        push_cast at hnear hlong ⊢
        linarith
      exact Int.add_le_add_left (Int.cast_le.mp hstart) _

end Demod

theorem Samples.clipped_share (x : Samples) (b : Burst) (h : b.clipped = 0) :
    0 ≤ x.clipped b ∧ x.clipped b ≤ 1 := by
  unfold Samples.clipped
  simp only
  split_ifs
  · generalize (x.rail.take _).drop _ = part
    have hcount : (part.count true : ℚ) ≤ part.length := Nat.cast_le.mpr List.count_le_length
    exact ⟨by positivity, div_le_one_of_le₀ hcount (Nat.cast_nonneg _)⟩
  · rw [h]
    norm_num

namespace Demod

variable {d : Demod} {x : Samples} {timestamp t0 : Option ℚ}

def ofRuns (d : Demod) (x : Samples) (timestamp : Option ℚ) : List Burst :=
  (runs x.hot).flatMap fun r =>
    if ((r.2 - r.1 : ℕ) : ℚ) < d.sps * 4 then []
    else d.demodBurst (x.segment r.1 r.2) (r.2 - r.1) r.1 timestamp

theorem demodulateBursts_eq (d : Demod) (x : Samples) (timestamp t0 : Option ℚ) :
    d.demodulateBursts x timestamp t0 = [] ∨
      ∃ stamp : Burst → Option ℚ, d.demodulateBursts x timestamp t0 =
        (d.ofRuns x timestamp).map fun b =>
          { b with timestamp := stamp b, clipped := x.clipped b } := by
  unfold demodulateBursts
  split_ifs
  · exact Or.inl rfl
  · apply Or.inr
    cases t0 with
    | none => exact ⟨fun b => b.timestamp, rfl⟩
    | some t0 =>
        refine ⟨fun b => some (t0 + b.start / d.sample_rate), ?_⟩
        simp only [List.map_map]
        rfl

theorem ofRun_lies (hsps : 0 < d.sps) {r : ℕ × ℕ} (hr : r ∈ runs x.hot) {b : Burst}
    (hb : b ∈ if ((r.2 - r.1 : ℕ) : ℚ) < d.sps * 4 then []
      else d.demodBurst (x.segment r.1 r.2) (r.2 - r.1) r.1 timestamp) : d.Lies r.1 r.2 b := by
  split_ifs at hb
  · exact absurd hb List.not_mem_nil
  · have hlies := demodBurst_lies hsps b hb
    rwa [Nat.add_sub_cancel' ((runs_spec x.hot).1.ordered hr)] at hlies

theorem ofRuns_lies (hsps : 0 < d.sps) {b : Burst} (h : b ∈ d.ofRuns x timestamp) :
    ∃ r ∈ runs x.hot, d.Lies r.1 r.2 b := by
  obtain ⟨r, hr, hb⟩ := List.mem_flatMap.mp h
  exact ⟨r, hr, ofRun_lies hsps hr hb⟩

theorem ofRuns_apart (hsps : 0 < d.sps) : (d.ofRuns x timestamp).Pairwise d.Follows := by
  refine List.pairwise_flatMap.mpr ⟨fun r _ => ?_, ?_⟩
  · split_ifs
    · exact List.Pairwise.nil
    · exact demodBurst_apart hsps
  · refine (runs_spec x.hot).1.pairwise.imp_of_mem fun {r r'} hr hr' hle b hb c hc => ?_
    have hfirst := ofRun_lies hsps hr hb
    have hsecond : ((r'.1 : ℤ) : ℚ) ≤ c.start := Int.cast_le.mpr (ofRun_lies hsps hr' hc).begins
    have hruns : ((r.2 : ℕ) : ℚ) ≤ r'.1 := Nat.cast_le.mpr hle
    have hblock : (0 : ℚ) ≤ d.syncDecim := Nat.cast_nonneg _
    have hend := hfirst.ends
    have hpos := hfirst.positive
    have hlength : (0 : ℚ) ≤ b.bits.length * b.sps := mul_nonneg (Nat.cast_nonneg _) hpos.le
    push_cast at hsecond
    refine ⟨by linarith, fun _ => ?_⟩
    have hstart : (b.start : ℚ) ≤ c.start := by linarith
    exact Int.cast_le.mp hstart

end Demod

/-- The bursts of a capture follow each other and do not overlap but for eight symbols and a block,
and each lies inside of one run of samples above the squelch. -/
theorem bursts_apart (d : Demod) (x : Samples) (timestamp t0 : Option ℚ)
    (hrate : 0 < d.sample_rate) (hbaud : 0 < d.baud) :
    (d.demodulateBursts x timestamp t0).Pairwise d.Follows ∧
    ∀ b ∈ d.demodulateBursts x timestamp t0,
      0 ≤ b.start ∧ (∀ n : ℕ, b.start ≤ n → (n : ℚ) < b.start + b.bits.length * b.sps →
        x.hot[n]? = some true) ∧
      d.min_bits ≤ b.bits.length ∧ b.soft.length = b.bits.length ∧
      0 ≤ b.clipped ∧ b.clipped ≤ 1 := by
  have hsps : 0 < d.sps := div_pos (Nat.cast_pos.mpr hrate) hbaud
  rcases d.demodulateBursts_eq x timestamp t0 with
    hnone | ⟨stamp, hsome⟩
  · rw [hnone]
    exact ⟨List.Pairwise.nil, fun b hb => absurd hb List.not_mem_nil⟩
  · rw [hsome]
    have hruns : (d.ofRuns x timestamp).Pairwise d.Follows := Demod.ofRuns_apart hsps
    have happart := hruns.imp
      fun {b c} h => (⟨h.ends, h.starts⟩ : d.Follows
        { b with timestamp := stamp b, clipped := x.clipped b }
        { c with timestamp := stamp c, clipped := x.clipped c })
    refine ⟨List.pairwise_map.mpr happart, fun b hb => ?_⟩
    obtain ⟨c, hc, rfl⟩ := List.mem_map.mp hb
    obtain ⟨r, hr, hlies⟩ := Demod.ofRuns_lies hsps hc
    have hbegins := hlies.begins
    have hshare := x.clipped_share c hlies.unmarked
    refine ⟨by simp only; omega, fun n (hn : c.start ≤ n) hlt => ?_, hlies.long, hlies.soft, hshare.1, hshare.2⟩
    have hhi : (n : ℚ) < r.2 := hlt.trans_le hlies.ends
    have hmem : n ∈ Spans.points (runs x.hot) :=
      Spans.mem_points.mpr ⟨r, hr, by omega, Nat.cast_lt.mp hhi⟩
    rw [(runs_spec x.hot).2] at hmem
    exact hmem

/-- The symbols of a message, of its acknowledgement inverted right behind it and twenty zeros, the
first of them as the lowest bit. -/
def loudAir : ℕ :=
  0x6666aa8aaaaaa4aaaaa98a9a9a945555a68a9a9a64a665a5869a5a54aa959a8a6a99a4a95a99899a6994a65555466669999557555555b55555675a5656baaaa597565659b59565a756a55ab6659657599a65b965a667556a66b55aaaab9999

/-- One sample a symbol, with a false sync near the end of the acknowledgement. -/
def loudSignal : Signal where
  score i := if i = 1 then 9 / 10 else if i = 381 then -(17 / 20) else if i = 750 then 4 / 5 else 0
  toneScore _ _ := 0
  cfo _ _ := 0
  level base _ tone lo _ := if loudAir.testBit (base + lo) = tone then 1 else 0

def pauseSignal : Signal where
  score _ := 0
  toneScore _ _ := 0
  cfo _ _ := 0
  level _ _ tone _ _ := if tone then 1 else 0

def loudDemod : Demod :=
  { sample_rate := 1, baud := 1, refine_rate := false, argsort := stableArgsort }

def loudSamples : Samples where
  hot := List.replicate 780 true ++ false :: List.replicate 70 true
  rail := List.replicate 851 false
  segment lo _ := if lo = 0 then loudSignal else pauseSignal

def Burst.extent (b : Burst) : ℤ × ℕ := (b.start, b.bits.length)

theorem loud_run : (loudDemod.demodBurst loudSignal 780 0 none).map Burst.extent =
    [(0, 388), (380, 388)] := by
  have hsyncs : loudDemod.syncs loudSignal 780 = [{ start := 1, score := 9 / 10, polarity := 1 },
      { start := 381, score := 17 / 20, polarity := -1 },
      { start := 750, score := 4 / 5, polarity := 1 }] := by decide +kernel
  unfold Demod.demodBurst
  rw [hsyncs]
  simp only
  rw [List.mergeSort_of_pairwise (by decide +kernel)]
  decide +kernel

theorem loud_bursts : (loudDemod.demodulateBursts loudSamples none none).map Burst.extent =
    [(0, 388), (380, 388), (781, 70)] := by
  have hruns : runs loudSamples.hot = [(0, 780), (781, 851)] := by decide +kernel
  have hpause : (loudDemod.demodBurst pauseSignal 70 781 none).map Burst.extent = [(781, 70)] := by
    decide +kernel
  have hloud := loud_run
  unfold Demod.demodulateBursts
  rw [if_neg (by decide +kernel), hruns]
  simp only [List.flatMap_cons, List.flatMap_nil, List.append_nil, List.map_append, List.map_map]
  rw [if_neg (by decide +kernel), if_neg (by decide +kernel)]
  exact congrArg₂ (· ++ ·) hloud hpause

theorem bursts_apart_loud :
    (loudDemod.demodulateBursts loudSamples none none).map Burst.extent =
        [(0, 388), (380, 388), (781, 70)] ∧
      (loudDemod.demodulateBursts loudSamples none none).Pairwise loudDemod.Follows ∧
      (loudDemod.syncDecim : ℚ) ≤ minPacketSymbols * loudDemod.sps :=
  ⟨loud_bursts,
    (bursts_apart loudDemod loudSamples none none (by decide) (by norm_num [loudDemod])).1,
    by decide +kernel⟩

end InsteonRf.Dsp
