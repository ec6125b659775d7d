import InsteonRf.MqttCapture
import InsteonRf.Lib.Greedy

/-!
# Finding packets in a signal

`find_sync` correlates the signal with the head that every packet begins with, and takes the best
peaks of the scores that stand at least a packet apart. The scores themselves, which are floating
point, and the order that the sort gives to equal ones are parameters here.
-/
namespace InsteonRf.Dsp
open Rounding Greedy

def preambleCellLogical : Bits := [true, false, false, true]

def syncPreambleCells : ℕ := 4

def minPacketSymbols : ℕ := 13 * 28

def headerSymbolInTemplate : ℕ := syncPreambleCells * 4 - 5

def maxPacketSymbols : ℕ := headerSymbolInTemplate + 32 * 28 + 32

def syncTemplate : Bits :=
  (List.replicate syncPreambleCells preambleCellLogical).flatten ++ startHeader.drop markerOffset

def resampleTemplate (bits : Bits) (sps : ℚ) : Bits :=
  (List.range (rint (bits.length * sps)).toNat).map fun (n : ℕ) =>
    bits.getD (min ⌊n / sps⌋.toNat (bits.length - 1)) false

/-- `template[::decim]` -/
def everyNth (decim : ℕ) (l : Bits) : Bits :=
  (List.range ((l.length + decim - 1) / decim)).map fun k => l.getD (k * decim) false

/-- A packet start: where the template begins, how well it matches and in which polarity. -/
structure Sync where
  start : ℕ
  score : ℚ
  polarity : ℤ
  deriving DecidableEq, Repr

structure SyncArgs where
  sps : ℚ
  decim : ℕ := 8
  threshold : ℚ := 11 / 20
  max_syncs : Option ℕ := none
  min_gap_symbols : ℕ := minPacketSymbols
  rel_threshold : ℚ := 1 / 4
  predecimated : Bool := false

namespace SyncArgs

variable (a : SyncArgs)

/-- How many places of a discriminator output of this size the template is tried at. -/
def places (size : ℕ) : ℕ :=
  let template := resampleTemplate syncTemplate a.sps
  let t := everyNth a.decim template
  let d := if a.predecimated then size else size / a.decim
  if size < template.length then 0
  else if t.dedup.length ≤ 1 then 0
  else if d < t.length then 0
  else d - t.length + 1

def guard : ℤ := max 1 (rint (a.min_gap_symbols * a.sps / a.decim))

def near (i j : ℕ) : Prop := |(i : ℤ) - j| ≤ a.guard

instance : DecidableRel a.near := fun i j => inferInstanceAs (Decidable (|(i : ℤ) - j| ≤ a.guard))

def syncAt (score : ℕ → ℚ) (i : ℕ) : Sync :=
  { start := i * a.decim, score := |score i|, polarity := if 0 < score i then 1 else -1 }

/-- The loop over the peaks, best first. -/
def takeSyncs (score : ℕ → ℚ) (floor : ℚ) : List ℕ → List ℕ → List Sync
  | _, [] => []
  | taken, i :: order =>
      -- the peaks are in the order of their scores: what follows is payload too
      if |score i| < floor then []
      else if ∃ t ∈ taken, a.near i t then takeSyncs score floor taken order
      else a.syncAt score i ::
        if a.max_syncs.any (fun m => decide (m ≤ taken.length + 1)) then []
        else takeSyncs score floor (taken ++ [i]) order

def peaks (size : ℕ) (score : ℕ → ℚ) : List ℕ :=
  (List.range (a.places size)).filter fun i => decide (a.threshold < |score i|)

/-- `find_sync`, with `score` for the correlation and `argsort` for the sort of the peaks. -/
def findSync (size : ℕ) (score : ℕ → ℚ) (argsort : (ℕ → ℚ) → List ℕ → List ℕ) : List Sync :=
  match argsort score (a.peaks size score) with
  | [] => []
  | best :: order => a.takeSyncs score (|score best| - a.rel_threshold) [] (best :: order)

end SyncArgs

/-- What is asked of a sort by falling magnitude: that of equals it may put any first. -/
def Ranks (argsort : (ℕ → ℚ) → List ℕ → List ℕ) : Prop :=
  ∀ score l, (argsort score l).Perm l ∧
    (argsort score l).Pairwise (fun i j => |score j| ≤ |score i|)

def stableArgsort (score : ℕ → ℚ) (l : List ℕ) : List ℕ :=
  l.insertionSort fun i j => |score j| ≤ |score i|

theorem ranks_stableArgsort : Ranks stableArgsort := by
  intro score l
  have htotal : Std.Total fun i j => |score j| ≤ |score i| := ⟨fun i j => le_total _ _⟩
  have htrans : IsTrans ℕ fun i j => |score j| ≤ |score i| := ⟨fun i j k hij hjk => hjk.trans hij⟩
  exact ⟨List.perm_insertionSort _ l, List.pairwise_insertionSort _ l⟩

def toneSyncCfos : List ℤ := (List.range 15).map fun (k : ℕ) => (k : ℤ) * 8000 - 56000

/-- `_tone_sync`, with the scores under each carrier offset. -/
def toneSync (size : ℕ) (sps : ℚ) (decim : ℕ) (threshold : ℚ) (score : ℤ → ℕ → ℚ)
    (argsort : (ℕ → ℚ) → List ℕ → List ℕ) : List Sync :=
  let args : SyncArgs := { sps, decim, threshold, predecimated := true }
  if size / decim < 4 then []
  else (toneSyncCfos.foldl (fun (best : List Sync × ℚ) cfo =>
    match args.findSync (size / decim) (score cfo) argsort with
    | [] => best
    | top :: found => if best.2 < top.score then (top :: found, top.score) else best) ([], 0)).1

namespace SyncArgs

variable {a : SyncArgs} {score : ℕ → ℚ} {argsort : (ℕ → ℚ) → List ℕ → List ℕ} {size : ℕ}

def above (score : ℕ → ℚ) (floor : ℚ) (order : List ℕ) : List ℕ :=
  order.takeWhile fun i => decide (floor ≤ |score i|)

theorem takeSyncs_eq (score : ℕ → ℚ) (floor : ℚ) (taken order : List ℕ)
    (hroom : ∀ m, a.max_syncs = some m → taken.length < max 1 m) :
    a.takeSyncs score floor taken order =
      match a.max_syncs with
      | none => (keep a.near taken (above score floor order)).map (a.syncAt score)
      | some m => ((keep a.near taken (above score floor order)).take
          (max 1 m - taken.length)).map (a.syncAt score) := by
  induction order generalizing taken with
  | nil => cases a.max_syncs <;> simp [takeSyncs, above, keep]
  | cons i order ih =>
      unfold takeSyncs above
      by_cases hfloor : |score i| < floor
      · rw [if_pos hfloor, List.takeWhile_cons_of_neg (by simpa using hfloor)]
        cases a.max_syncs <;> simp [keep]
      · rw [if_neg hfloor, List.takeWhile_cons_of_pos (by simpa using hfloor)]
        unfold keep
        by_cases hnear : ∃ t ∈ taken, a.near i t
        · rw [if_pos hnear, if_pos hnear]
          exact ih taken hroom
        · rw [if_neg hnear, if_neg hnear]
          cases hmax : a.max_syncs with
          | none =>
              have hrest := ih (taken ++ [i]) (fun m hm => by rw [hmax] at hm; cases hm)
              rw [hmax] at hrest
              simp only [Option.any_none, Bool.false_eq_true, if_false, List.map_cons, hrest, above]
          | some m =>
              have hlt := hroom m hmax
              have hleft : max 1 m - taken.length = (max 1 m - (taken ++ [i]).length) + 1 := by
                rw [List.length_append, List.length_singleton]
                omega
              simp only [Option.any_some, decide_eq_true_eq]
              rw [hleft, List.take_succ_cons, List.map_cons]
              congr 1
              by_cases hfull : m ≤ taken.length + 1
              · have hzero : max 1 m - (taken ++ [i]).length = 0 := by
                  rw [List.length_append, List.length_singleton]
                  omega
                rw [if_pos hfull, hzero, List.take_zero, List.map_nil]
              · have hrest := ih (taken ++ [i]) (fun n hn => by
                  rw [hmax] at hn
                  obtain rfl := Option.some.inj hn
                  rw [List.length_append, List.length_singleton]
                  omega)
                rw [hmax] at hrest
                rw [if_neg hfull, hrest]
                rfl

def chosen (a : SyncArgs) (size : ℕ) (score : ℕ → ℚ)
    (argsort : (ℕ → ℚ) → List ℕ → List ℕ) : List ℕ :=
  match argsort score (a.peaks size score) with
  | [] => []
  | best :: order => keep a.near [] (above score (|score best| - a.rel_threshold) (best :: order))

theorem findSync_eq (a : SyncArgs) (size : ℕ) (score : ℕ → ℚ)
    (argsort : (ℕ → ℚ) → List ℕ → List ℕ) :
    a.findSync size score argsort =
      match a.max_syncs with
      | none => (a.chosen size score argsort).map (a.syncAt score)
      | some m => ((a.chosen size score argsort).take (max 1 m)).map (a.syncAt score) := by
  unfold findSync chosen
  cases argsort score (a.peaks size score) with
  | nil => cases a.max_syncs <;> simp
  | cons best order =>
      have hroom : ∀ m, a.max_syncs = some m → ([] : List ℕ).length < max 1 m :=
        fun m _ => by rw [List.length_nil]; omega
      exact takeSyncs_eq score _ [] (best :: order) hroom

theorem mem_peaks {i : ℕ} : i ∈ a.peaks size score ↔ i < a.places size ∧ a.threshold < |score i| := by
  unfold peaks
  rw [List.mem_filter, List.mem_range, decide_eq_true_iff]

/-- The peaks that are not too far below the best one. -/
def Strong (a : SyncArgs) (size : ℕ) (score : ℕ → ℚ) (i : ℕ) : Prop :=
  (i < a.places size ∧ a.threshold < |score i|) ∧
    ∀ j < a.places size, a.threshold < |score j| → |score j| ≤ |score i| + a.rel_threshold

/-- In a list by falling magnitude, what the loop looks at is what is not too far below the
first. -/
theorem mem_above {best : ℕ} {order : List ℕ} {floor : ℚ} {i : ℕ}
    (hsorted : (best :: order).Pairwise (fun i j => |score j| ≤ |score i|)) :
    i ∈ above score floor (best :: order) ↔ i ∈ best :: order ∧ floor ≤ |score i| := by
  generalize best :: order = l at hsorted
  unfold above
  induction l with
  | nil => simp
  | cons j l ih =>
      obtain ⟨hj, hsorted⟩ := List.pairwise_cons.mp hsorted
      by_cases hfloor : floor ≤ |score j|
      · rw [List.takeWhile_cons_of_pos (by simpa using hfloor), List.mem_cons, List.mem_cons,
          ih hsorted]
        constructor
        · rintro (rfl | ⟨hi, hle⟩)
          · exact ⟨Or.inl rfl, hfloor⟩
          · exact ⟨Or.inr hi, hle⟩
        · rintro ⟨rfl | hi, hle⟩
          · exact Or.inl rfl
          · exact Or.inr ⟨hi, hle⟩
      · rw [List.takeWhile_cons_of_neg (by simpa using hfloor)]
        constructor
        · exact fun h => absurd h List.not_mem_nil
        · rintro ⟨hi, hle⟩
          rcases List.mem_cons.mp hi with rfl | hi
          · exact absurd hle hfloor
          · exact absurd (hle.trans (hj i hi)) hfloor

section Ranked

variable (hrank : Ranks argsort)
include hrank

theorem chosen_candidates (a : SyncArgs) (size : ℕ) (score : ℕ → ℚ) :
    ∃ l, a.chosen size score argsort = keep a.near [] l ∧
      (∀ i, i ∈ l ↔ a.Strong size score i) ∧
      l.Pairwise (fun i j => |score j| ≤ |score i|) := by
  obtain ⟨hperm, hsorted⟩ := hrank score (a.peaks size score)
  have hmem : ∀ i, i ∈ argsort score (a.peaks size score) ↔
      i < a.places size ∧ a.threshold < |score i| :=
    fun i => hperm.mem_iff.trans mem_peaks
  unfold chosen
  cases hl : argsort score (a.peaks size score) with
  | nil =>
      rw [hl] at hmem
      exact ⟨[], rfl, fun i => ⟨fun h => absurd h List.not_mem_nil,
        fun h => absurd ((hmem i).mpr h.1) List.not_mem_nil⟩, List.Pairwise.nil⟩
  | cons best order =>
      rw [hl] at hmem hsorted
      refine ⟨_, rfl, fun i => ?_, hsorted.sublist (List.takeWhile_sublist _)⟩
      rw [mem_above hsorted, hmem]
      have hbest : ∀ j ∈ best :: order, |score j| ≤ |score best| := by
        intro j hj
        rcases List.mem_cons.mp hj with rfl | hj
        · exact le_rfl
        · exact (List.pairwise_cons.mp hsorted).1 j hj
      constructor
      · rintro ⟨hi, hfloor⟩
        exact ⟨hi, fun j hlt hpeak =>
          (hbest j ((hmem j).mpr ⟨hlt, hpeak⟩)).trans (by linarith)⟩
      · rintro ⟨hi, hstrong⟩
        obtain ⟨hlt, hpeak⟩ := (hmem best).mp (by simp)
        exact ⟨hi, by linarith [hstrong best hlt hpeak]⟩

theorem chosen_strong {i : ℕ} (h : i ∈ a.chosen size score argsort) : a.Strong size score i := by
  obtain ⟨l, hl, hmem, -⟩ := chosen_candidates hrank a size score
  rw [hl] at h
  exact (hmem i).mp (keep_sublist.subset h)

theorem chosen_ranked :
    (a.chosen size score argsort).Pairwise (fun i j => |score j| ≤ |score i|) := by
  obtain ⟨l, hl, -, hsorted⟩ := chosen_candidates hrank a size score
  rw [hl]
  exact hsorted.sublist keep_sublist

theorem chosen_apart : (a.chosen size score argsort).Pairwise (fun i j => ¬ a.near j i) := by
  obtain ⟨l, hl, -, -⟩ := chosen_candidates hrank a size score
  rw [hl]
  exact keep_apart

/-- A strong peak that is not taken is near one at least as strong that is. -/
theorem chosen_covers {i : ℕ} (h : a.Strong size score i) :
    ∃ j ∈ a.chosen size score argsort, |score i| ≤ |score j| ∧ a.near i j := by
  obtain ⟨l, hl, hmem, hsorted⟩ := chosen_candidates hrank a size score
  rw [hl]
  rcases keep_covers a.near [] hsorted ((hmem i).mpr h) with
    hkept | ⟨j, hnear, hj | ⟨hj, hle⟩⟩
  · refine ⟨i, hkept, le_rfl, ?_⟩
    unfold near
    rw [sub_self, abs_zero]
    exact zero_le_one.trans (le_max_left _ _)
  · cases hj
  · exact ⟨j, hj, hle, hnear⟩

end Ranked

theorem gap_of_not_near {i j : ℕ} (hdecim : 0 < a.decim) (h : ¬ a.near i j) :
    a.min_gap_symbols * a.sps + a.decim / 2 ≤ |((i * a.decim : ℕ) : ℚ) - (j * a.decim : ℕ)| := by
  have hpos : (0 : ℚ) < a.decim := Nat.cast_pos.mpr hdecim
  have hguard : a.min_gap_symbols * a.sps / a.decim - 1 / 2 ≤ a.guard := by
    have hrint := (abs_le.mp (abs_rint_sub_le (a.min_gap_symbols * a.sps / a.decim))).1
    have hmax : (rint (a.min_gap_symbols * a.sps / a.decim) : ℚ) ≤ a.guard :=
      Int.cast_le.mpr (le_max_right _ _)
    linarith
  have happart : (a.guard : ℚ) + 1 ≤ |(i : ℚ) - j| := by
    have hlt : a.guard + 1 ≤ |(i : ℤ) - j| := not_le.mp h
    exact_mod_cast hlt
  have hscale : |((i * a.decim : ℕ) : ℚ) - (j * a.decim : ℕ)| = |(i : ℚ) - j| * a.decim := by
    push_cast
    rw [← sub_mul, abs_mul, abs_of_pos hpos]
  calc a.min_gap_symbols * a.sps + a.decim / 2
      = (a.min_gap_symbols * a.sps / a.decim - 1 / 2 + 1) * a.decim := by
        field_simp
        ring
    _ ≤ |(i : ℚ) - j| * a.decim := by gcongr; linarith
    _ = |((i * a.decim : ℕ) : ℚ) - (j * a.decim : ℕ)| := hscale.symm

/-- A list of syncs of a search is part of those taken without a limit. -/
theorem findSync_sublist :
    (a.findSync size score argsort).Sublist
      ((a.chosen size score argsort).map (a.syncAt score)) := by
  rw [findSync_eq]
  cases a.max_syncs with
  | none => exact List.Sublist.refl _
  | some m => exact (List.take_sublist _ _).map _

theorem findSync_spaced (hrank : Ranks argsort) (hdecim : 0 < a.decim) :
    (a.findSync size score argsort).Pairwise (fun s t =>
      a.min_gap_symbols * a.sps + a.decim / 2 ≤ |(s.start : ℚ) - t.start|) := by
  refine List.Pairwise.sublist findSync_sublist (List.pairwise_map.mpr ?_)
  refine (chosen_apart hrank).imp fun {i j} hfar => ?_
  rw [abs_sub_comm]
  exact gap_of_not_near hdecim hfar

end SyncArgs

/-- Whatever the scores are, a search finds places whose scores exceed the threshold and come
close to the best, the best first, no two of them closer than the shortest packet; and any such
place that it leaves out is within a packet of a better one it has taken. With a limit it
returns the first of what it finds without. -/
theorem findSync_peaks (a : SyncArgs) (size : ℕ) (score : ℕ → ℚ)
    (argsort : (ℕ → ℚ) → List ℕ → List ℕ) (hrank : Ranks argsort) (hdecim : 0 < a.decim) :
    (∀ s ∈ a.findSync size score argsort, ∃ i, a.Strong size score i ∧ s = a.syncAt score i) ∧
    (a.findSync size score argsort).Pairwise (fun s t => t.score ≤ s.score) ∧
    (a.findSync size score argsort).Pairwise (fun s t =>
      a.min_gap_symbols * a.sps + a.decim / 2 ≤ |(s.start : ℚ) - t.start|) ∧
    (a.max_syncs = none → ∀ i, a.Strong size score i →
      ∃ s ∈ a.findSync size score argsort, |score i| ≤ s.score ∧
        |(s.start : ℤ) - (i * a.decim : ℕ)| ≤ a.guard * a.decim) ∧
    (∀ m, a.max_syncs = some m → a.findSync size score argsort =
      ({ a with max_syncs := none }.findSync size score argsort).take (max 1 m)) := by
  refine ⟨fun s hs => ?_, ?_, SyncArgs.findSync_spaced hrank hdecim, fun hmax i hi => ?_,
    fun m hm => ?_⟩
  · obtain ⟨i, hi, rfl⟩ := List.mem_map.mp (SyncArgs.findSync_sublist.subset hs)
    exact ⟨i, SyncArgs.chosen_strong hrank hi, rfl⟩
  · refine List.Pairwise.sublist SyncArgs.findSync_sublist (List.pairwise_map.mpr ?_)
    exact SyncArgs.chosen_ranked hrank
  · obtain ⟨j, hj, hle, hnear⟩ := SyncArgs.chosen_covers hrank hi
    refine ⟨a.syncAt score j, ?_, hle, ?_⟩
    · rw [SyncArgs.findSync_eq, hmax]
      exact List.mem_map_of_mem hj
    · have hscale : ((a.syncAt score j).start : ℤ) - (i * a.decim : ℕ) =
          ((j : ℤ) - i) * a.decim := by
        simp only [SyncArgs.syncAt]
        push_cast
        ring
      rw [hscale, abs_mul, abs_sub_comm, Nat.abs_cast]
      exact mul_le_mul_of_nonneg_right hnear (Int.natCast_nonneg _)
  · rw [SyncArgs.findSync_eq, SyncArgs.findSync_eq, hm]
    simp only [← List.map_take]
    rfl

theorem toneSync_cases (size : ℕ) (sps : ℚ) (decim : ℕ) (threshold : ℚ) (score : ℤ → ℕ → ℚ)
    (argsort : (ℕ → ℚ) → List ℕ → List ℕ) :
    toneSync size sps decim threshold score argsort = [] ∨
      ∃ cfo ∈ toneSyncCfos, toneSync size sps decim threshold score argsort =
        ({ sps, decim, threshold, predecimated := true } : SyncArgs).findSync (size / decim)
          (score cfo) argsort := by
  unfold toneSync
  split_ifs
  · exact Or.inl rfl
  · refine List.foldlRecOn (motive := fun best : List Sync × ℚ => best.1 = [] ∨
      ∃ cfo ∈ toneSyncCfos, best.1 = ({ sps, decim, threshold, predecimated := true } :
        SyncArgs).findSync (size / decim) (score cfo) argsort) toneSyncCfos _ (Or.inl rfl)
      fun best hbest cfo hcfo => ?_
    cases hfound : ({ sps, decim, threshold, predecimated := true } : SyncArgs).findSync
        (size / decim) (score cfo) argsort with
    | nil => exact hbest
    | cons top found =>
        simp only
        split_ifs
        · exact Or.inr ⟨cfo, hcfo, hfound.symm⟩
        · exact hbest

/-- Two packets, and between them the false peak of a payload that is stronger than the second. -/
def twoPeaks (i : ℕ) : ℚ :=
  if i = 10 then -9 / 10 else if i = 12 then 4 / 5 else if i = 450 then 7 / 10 else 1 / 10

theorem findSync_peaks_twoPeaks :
    ∃ s ∈ ({ sps := 1, decim := 1, predecimated := true } : SyncArgs).findSync 527 twoPeaks
      stableArgsort, 7 / 10 ≤ s.score ∧ |(s.start : ℤ) - (450 * 1 : ℕ)| ≤ 364 * 1 := by
  have hplaces : ({ sps := 1, decim := 1, predecimated := true } : SyncArgs).places 527 = 501 := by
    decide +kernel
  have hguard : ({ sps := 1, decim := 1, predecimated := true } : SyncArgs).guard = 364 := by
    decide +kernel
  have habs : |twoPeaks 450| = 7 / 10 := by norm_num [twoPeaks]
  have hstrong : ({ sps := 1, decim := 1, predecimated := true } : SyncArgs).Strong 527 twoPeaks
      450 := by
    refine ⟨⟨by rw [hplaces]; omega, by rw [habs]; norm_num⟩, fun j _ _ => ?_⟩
    rw [habs]
    unfold twoPeaks
    split_ifs <;> norm_num
  obtain ⟨s, hs, hscore, hplace⟩ := (findSync_peaks
    { sps := 1, decim := 1, predecimated := true } 527 twoPeaks stableArgsort ranks_stableArgsort
    one_pos).2.2.2.1 rfl 450 hstrong
  rw [hguard] at hplace
  rw [habs] at hscore
  exact ⟨s, hs, hscore, hplace⟩

end InsteonRf.Dsp
