import InsteonRf.Packet
import InsteonRf.Lib.Machine
import InsteonRf.Lib.Traced

/-!
# The C demodulator

`fsk2_demod` turns buffers of I/Q samples into bits. In the first buffer of a transmission it looks
for a sample to start at and from there for a phase shift to set its clock by; in every buffer it
compares each sample at the middle of a bit with the one before it, and now and then walks back
over the last of them. Every place of the buffer that is read is logged.
-/
namespace InsteonRf.Fsk2Demod
open Traced

structure IQ where
  i : ℤ
  q : ℤ

/-- `((struct IQ *) data)[n]`, in a memory that goes on behind the buffer. -/
def sample (data : ℕ → Byte) (n : ℕ) : IQ := ⟨(data (2 * n)).toInt, (data (2 * n + 1)).toInt⟩

def int16 (v : ℤ) : ℤ := Int.bmod v 65536

def uint16 (v : ℤ) : ℤ := v % 65536

def nabs (j : ℤ) : ℤ := if j < 0 then j else -j

def q15Mul (j k : ℤ) : ℤ :=
  let intermediate := j * k
  int16 ((intermediate + if intermediate % 0x8000 = 0x4000 then 0 else 0x4000) >>> (15 : ℕ))

def q15Div (numer denom : ℤ) : ℤ := int16 ((numer * 2 ^ 15).tdiv denom)

/-- `q15_from_double(0.273 * M_1_PI)` -/
def q15Slope : ℤ := 2847

/-- `q15_from_double(0.25 + 0.273 * M_1_PI)` -/
def q15Eighth : ℤ := 11039

/-- `fxpt_atan2`: the angle of `(x, y)` in 65536ths of a turn. -/
def fxptAtan2 (y x : ℤ) : ℤ :=
  if x = y then if 0 < y then 8192 else if y < 0 then 40960 else 0
  else if nabs x < nabs y then
    let y_over_x := q15Div y x
    let correction := q15Mul q15Slope (nabs y_over_x)
    let unrotated := q15Mul (int16 (q15Eighth + correction)) y_over_x
    if 0 < x then uint16 unrotated else uint16 (32768 + unrotated)
  else
    let x_over_y := q15Div x y
    let correction := q15Mul q15Slope (nabs x_over_y)
    let unrotated := q15Mul (int16 (q15Eighth + correction)) x_over_y
    if 0 < y then uint16 (16384 - unrotated) else uint16 (49152 - unrotated)

def IQ.phase (s : IQ) : ℤ := fxptAtan2 s.q s.i

/-- The options, and `(int) fmodf((float) byte_count, single_mark_f)` as a function of the count. -/
structure Config where
  single_mark : ℤ
  fmod : ℕ → ℤ
  phase_count : ℤ := 2
  data_one : Char := '1'
  data_zero : Char := '0'
  unsigned_input : Bool := true
  gain : ℤ := 1
  carrierThreshold : ℤ := 10

/-- The globals, the static variables of `fsk`, and what has been printed. -/
structure Globals where
  stateMark : ℤ := 0
  resync_cnt : ℤ := 0
  bit_count : ℤ := 0
  byte_count : ℕ := 0
  stateMark_add : Bool := false
  stateMark_cnt : ℤ := 0
  stateMark_score : ℤ := 0
  prev_i : ℤ := 0
  prev_q : ℤ := 0
  out : List Char := []

section Buffer
variable (data : ℕ → Byte)

/-- The loop of `resync_shift` from `iq[x]` down, which ends at the latest at `x_start`; that is not
negative. -/
def resyncFrom (x_start ph : ℤ) : ℕ → ℤ → Traced ℕ ℤ
  | 0, _ => pure (-1)
  | x + 1, up =>
      if x_start < x + 1 then do
        let s ← read (sample data) (x + 1)
        let tp := up - s.phase
        if tp = 0 ∨ 32000 < tp ∨ tp < -32000 then resyncFrom x_start ph x s.phase
        else if (0 < tp ∧ 0 < ph) ∨ (tp < 0 ∧ ph < 0) then resyncFrom x_start ph x s.phase
        else pure 0
      else pure (-1)

def resyncShift (loc : ℕ) (pkt_offset ph : ℤ) : Traced ℕ ℤ :=
  let x_start := loc - pkt_offset * 2
  if x_start < 0 then pure (-1)
  else do
    let prev ← read (sample data) loc
    resyncFrom data x_start ph loc prev.phase

/-- The loop of `find_shift` from `iq[i]` on, with `n` rounds to go. -/
def findShiftFrom (prev_phase : ℤ) (i : ℕ) : ℕ → Traced ℕ ℕ
  | 0 => pure 0
  | n + 1 => do
      let s ← read (sample data) i
      if 0 ≤ s.i then
        let next ← read (sample data) (i + 1)
        if next.i < 0 then
          let s ← read (sample data) i
          let phase := if 0 < s.q then 1 else -1
          if prev_phase = 0 then findShiftFrom phase (i + 1) n
          else if prev_phase ≠ phase then pure i
          else findShiftFrom prev_phase (i + 1) n
        else findShiftFrom prev_phase (i + 1) n
      else findShiftFrom prev_phase (i + 1) n

def findShift (start len : ℕ) : Traced ℕ ℕ := findShiftFrom data 0 start (len - start)

/-- The first sample above 10 from `iq[i]` on, among `n`. -/
def findStart (i : ℕ) : ℕ → Traced ℕ ℕ
  | 0 => pure i
  | n + 1 => do
      let s ← read (sample data) i
      if 10 < s.i then pure i else findStart (i + 1) n

variable (cfg : Config)

/-- What `fsk` does in the first buffer: the place to start at, and the clock. -/
def firstBuffer (data_len : ℕ) (g : Globals) : Traced ℕ (ℕ × Globals) := do
  let start_offset ← findStart data 0 (data_len / 2)
  -- the length in bytes is passed for one in samples
  let i ← findShift data start_offset data_len
  let first ← read (sample data) start_offset
  return (start_offset, { g with
    stateMark := (i + cfg.single_mark.tdiv 2).tmod cfg.single_mark
    byte_count := start_offset
    prev_i := first.i
    prev_q := first.q })

/-- A phase step is counted, and a bit printed once enough of them have been. -/
def countPhase (g : Globals) (phased : ℤ) : Globals :=
  let g :=
    if 0 < phased then
      { g with stateMark_score := g.stateMark_score + 1, stateMark_cnt := g.stateMark_cnt + 1 }
    else if phased < 0 then
      { g with stateMark_score := g.stateMark_score - 1, stateMark_cnt := g.stateMark_cnt + 1 }
    else g
  if cfg.phase_count ≤ g.stateMark_cnt ∧ g.stateMark_score ≠ 0 then
    { g with
      bit_count := g.bit_count + 1
      out := g.out ++ [if g.stateMark_score < 0 then cfg.data_zero else cfg.data_one]
      stateMark_add := false
      stateMark_cnt := 0
      stateMark_score := 0 }
  else g

/-- The phase step to `iq[i]`, where a bit is being read. -/
def readPhase (i : ℕ) (g : Globals) (phased : ℤ) : Traced ℕ (Globals × ℤ) := do
  let s ← read (sample data) i
  let tp := s.phase - fxptAtan2 g.prev_q g.prev_i
  let phased := if tp ≠ 0 ∧ tp < 32000 ∧ -32000 < tp then tp else phased
  if 10 < g.resync_cnt then
    let _ ← resyncShift data i g.stateMark phased
    return (countPhase cfg { g with resync_cnt := 0 } phased, phased)
  else return (countPhase cfg { g with resync_cnt := g.resync_cnt + 1 } phased, phased)

/-- What is done with `iq[i]`: a bit is being read from its middle on. -/
def demodSample (i : ℕ) (g : Globals) (phased : ℤ) : Traced ℕ (Globals × ℤ) :=
  let hit := decide (g.stateMark = cfg.fmod g.byte_count)
  let g := { g with
    stateMark_add := g.stateMark_add || hit
    byte_count := g.byte_count + 1 }
  if g.stateMark_add then readPhase data cfg i g phased else pure (g, phased)

/-- The loop of `fsk` from `iq[i]` on, with `n` samples to go. -/
def demodFrom (i : ℕ) (g : Globals) (phased : ℤ) : ℕ → Traced ℕ Globals
  | 0 => pure g
  | n + 1 => do
      let next ← demodSample data cfg i g phased
      let s ← read (sample data) i
      demodFrom (i + 1) { next.1 with prev_i := s.i, prev_q := s.q } next.2 n

/-- Where `fsk` starts, and the globals it starts with. -/
def startAt (data_len : ℕ) (g : Globals) : Traced ℕ (ℕ × Globals) :=
  if g.byte_count = 0 then firstBuffer data cfg data_len g else pure (0, g)

def fsk (data_len : ℕ) (g : Globals) : Traced ℕ Globals := do
  let start ← startAt data cfg data_len g
  demodFrom data cfg start.1 start.2 0 (data_len / 2 - start.1)

end Buffer

section Bounds
variable {data : ℕ → Byte} {L : ℕ}

theorem within_resyncFrom (x_start ph : ℤ) {x : ℕ} (hx : x < L) (up : ℤ) :
    Within (· < L) (resyncFrom data x_start ph x up) := by
  induction x generalizing up with
  | zero => exact within_pure _
  | succ x ih =>
      rw [resyncFrom]
      refine within_ite (fun _ => ?_) (fun _ => within_pure _)
      rw [within_bind]
      refine ⟨(within_read _ _).mpr hx, ?_⟩
      refine within_ite (fun _ => ih (by omega) _) (fun _ => ?_)
      exact within_ite (fun _ => ih (by omega) _) (fun _ => within_pure _)

/-- The walk back reads no sample behind the one it starts from. -/
theorem within_resyncShift {loc : ℕ} (hloc : loc < L) (pkt_offset ph : ℤ) :
    Within (· < L) (resyncShift data loc pkt_offset ph) := by
  rw [resyncShift]
  refine within_ite (fun _ => within_pure _) (fun _ => ?_)
  rw [within_bind]
  exact ⟨(within_read _ _).mpr hloc, within_resyncFrom _ ph hloc _⟩

theorem within_readPhase {cfg : Config} {i : ℕ} (hi : i < L) (g : Globals) (phased : ℤ) :
    Within (· < L) (readPhase data cfg i g phased) := by
  rw [readPhase, within_bind]
  refine ⟨(within_read _ _).mpr hi, ?_⟩
  dsimp only
  refine within_ite (fun _ => ?_) (fun _ => within_pure _)
  rw [within_bind]
  exact ⟨within_resyncShift hi _ _, within_pure _⟩

theorem within_demodSample {cfg : Config} {i : ℕ} (hi : i < L) (g : Globals) (phased : ℤ) :
    Within (· < L) (demodSample data cfg i g phased) :=
  within_ite (fun _ => within_readPhase hi _ _) (fun _ => within_pure _)

theorem within_demodFrom {cfg : Config} {i n : ℕ} (hin : i + n ≤ L) (g : Globals) (phased : ℤ) :
    Within (· < L) (demodFrom data cfg i g phased n) := by
  induction n generalizing i g phased with
  | zero => exact within_pure _
  | succ n ih =>
      rw [demodFrom, within_bind, within_bind]
      exact ⟨within_demodSample (by omega) _ _, (within_read _ _).mpr (by omega), ih (by omega) _ _⟩

theorem within_findStart {i n : ℕ} (hin : i + n ≤ L) : Within (· < L) (findStart data i n) := by
  induction n generalizing i with
  | zero => exact within_pure _
  | succ n ih =>
      rw [findStart, within_bind]
      exact ⟨(within_read _ _).mpr (by omega), within_ite (fun _ => within_pure _) (fun _ => ih (by omega))⟩

theorem findStart_spec (data : ℕ → Byte) (i n : ℕ) :
    i ≤ (findStart data i n).value ∧ (findStart data i n).value ≤ i + n ∧
      ((findStart data i n).value < i + n → 10 < (sample data (findStart data i n).value).i) ∧
      ∀ j, i ≤ j → j < (findStart data i n).value → (sample data j).i ≤ 10 := by
  induction n generalizing i with
  | zero => 
      refine ⟨le_rfl, le_rfl, fun h => absurd h (lt_irrefl _), ?_⟩
      intro j hj hlt
      exact absurd hlt (not_lt.mpr hj)
  | succ n ih =>
      rw [findStart, value_bind, value_read]
      split_ifs with h
      · simp only [value_pure]
        exact ⟨le_rfl, by omega, fun _ => h, fun j hj hlt => absurd hlt (not_lt.mpr hj)⟩
      · obtain ⟨hlow, hhigh, hat, hbefore⟩ := ih (i + 1)
        refine ⟨by omega, by omega, fun hlt => hat (by omega), ?_⟩
        intro j hj hlt
        by_cases hji : j = i
        · rw [hji]
          omega
        · exact hbefore j (by omega) hlt

/-- The I component falls through zero between `iq[n]` and the next sample. -/
def Drop (data : ℕ → Byte) (n : ℕ) : Prop := 0 ≤ (sample data n).i ∧ (sample data (n + 1)).i < 0

/-- The direction of the fall, from the sign of Q. -/
def direction (data : ℕ → Byte) (n : ℕ) : ℤ := if 0 < (sample data n).q then 1 else -1

theorem direction_cases (data : ℕ → Byte) (n : ℕ) : direction data n = 1 ∨ direction data n = -1 := by
  unfold direction
  split_ifs
  · exact .inl rfl
  · exact .inr rfl

/-- One round of the search: a sample that is not negative is compared with the next one, and the
search goes on unless this is a fall against the direction that is known. -/
theorem within_findShiftFrom_succ {prev : ℤ} {i n : ℕ} (hi : i < L) :
    Within (· < L) (findShiftFrom data prev i (n + 1)) ↔
      (0 ≤ (sample data i).i → i + 1 < L) ∧
      (Drop data i → prev = 0 ∨ prev = direction data i →
        Within (· < L) (findShiftFrom data (direction data i) (i + 1) n)) ∧
      (¬ Drop data i → Within (· < L) (findShiftFrom data prev (i + 1) n)) := by
  rw [findShiftFrom, within_bind, within_read, value_read]
  by_cases hpos : 0 ≤ (sample data i).i
  · rw [if_pos hpos, within_bind, within_read, value_read]
    by_cases hneg : (sample data (i + 1)).i < 0
    · have hdrop : Drop data i := ⟨hpos, hneg⟩
      rw [if_pos hneg, within_bind, within_read, value_read]
      dsimp only
      rw [show (if 0 < (sample data i).q then (1 : ℤ) else -1) = direction data i from rfl]
      by_cases hzero : prev = 0
      · simp [hzero, hi, hpos, hdrop]
      · by_cases hsame : prev = direction data i
        · have hdir : direction data i ≠ 0 := hsame ▸ hzero
          simp [hsame, hdir, hi, hpos, hdrop]
        · simp [hzero, hsame, hi, hpos, hdrop]
    · have hdrop : ¬ Drop data i := fun h => hneg h.2
      simp [hneg, hi, hpos, hdrop]
  · have hdrop : ¬ Drop data i := fun h => hpos h.1
    simp [hpos, hi, hdrop]

theorem not_within_findShiftFrom {prev : ℤ} {n : ℕ} :
    ¬ Within (· < L) (findShiftFrom data prev L (n + 1)) := by
  rw [findShiftFrom, within_bind, within_read]
  exact fun h => lt_irrefl L h.1

/-- At the last sample of the buffer the search has left it or is about to. -/
theorem not_within_last {prev : ℤ} {i n : ℕ} (hi : i + 1 = L) (hn : L < i + (n + 1)) :
    ¬ Within (· < L) (findShiftFrom data prev i (n + 1)) := by
  obtain ⟨m, rfl⟩ := Nat.exists_eq_succ_of_ne_zero (show n ≠ 0 by omega)
  rw [within_findShiftFrom_succ (by omega)]
  rintro ⟨hnext, -, hlater⟩
  have hneg : ¬ 0 ≤ (sample data i).i := fun h => by have := hnext h; omega
  have hrest := hlater (fun hdrop => hneg hdrop.1)
  rw [hi] at hrest
  exact not_within_findShiftFrom hrest

/-- A fall before the end of the buffer, in another direction than this. -/
def FallsFrom (data : ℕ → Byte) (L : ℕ) (prev : ℤ) (i : ℕ) : Prop :=
  ∃ b, i ≤ b ∧ b + 1 < L ∧ Drop data b ∧ direction data b ≠ prev

theorem FallsFrom.lt {prev : ℤ} {i : ℕ} (h : FallsFrom data L prev i) : i + 1 < L := by
  obtain ⟨b, hib, hb, -⟩ := h
  omega

theorem fallsFrom_iff {prev : ℤ} {i : ℕ} (hi : i + 1 < L) :
    FallsFrom data L prev i ↔ (Drop data i ∧ direction data i ≠ prev) ∨ FallsFrom data L prev (i + 1) := by
  constructor
  · rintro ⟨b, hib, hb, hdrop, hdir⟩
    rcases hib.lt_or_eq with hlt | rfl
    · exact .inr ⟨b, hlt, hb, hdrop, hdir⟩
    · exact .inl ⟨hdrop, hdir⟩
  · rintro (⟨hdrop, hdir⟩ | ⟨b, hib, hb, hdrop, hdir⟩)
    · exact ⟨i, le_rfl, hi, hdrop, hdir⟩
    · exact ⟨b, by omega, hb, hdrop, hdir⟩

/-- Once a direction is known, the search stays inside the buffer exactly if there is a fall the
other way before its end. -/
theorem within_findShiftFrom {prev : ℤ} (hprev : prev ≠ 0) {i n : ℕ} (hi : i ≤ L) (hn : L < i + n) :
    Within (· < L) (findShiftFrom data prev i n) ↔ FallsFrom data L prev i := by
  induction n generalizing i prev with
  | zero => omega
  | succ n ih =>
      rcases lt_trichotomy (i + 1) L with hlt | hlast | hend
      · have hrest : ∀ p : ℤ, p ≠ 0 → (Within (· < L) (findShiftFrom data p (i + 1) n) ↔
            FallsFrom data L p (i + 1)) := fun p hp => ih hp hlt.le (by omega)
        rw [within_findShiftFrom_succ (by omega), fallsFrom_iff hlt]
        by_cases hdrop : Drop data i
        · by_cases hsame : prev = direction data i
          · rw [← hsame, hrest prev hprev]
            simp [hdrop, hlt]
          · have hother : direction data i ≠ prev := fun h => hsame h.symm
            simp [hdrop, hlt, hprev, hsame, hother]
        · rw [hrest prev hprev]
          simp [hdrop, hlt]
      · exact iff_of_false (not_within_last hlast hn) (fun h => by have := h.lt; omega)
      · obtain rfl : i = L := by omega
        exact iff_of_false not_within_findShiftFrom (fun h => by have := h.lt; omega)

theorem within_findShiftFrom_zero {i n : ℕ} (hi : i ≤ L) (hn : L < i + n) :
    Within (· < L) (findShiftFrom data 0 i n) ↔ FallsFrom data L (-1) i ∧ FallsFrom data L 1 i := by
  induction n generalizing i with
  | zero => omega
  | succ n ih =>
      rcases lt_trichotomy (i + 1) L with hlt | hlast | hend
      · rw [within_findShiftFrom_succ (by omega), fallsFrom_iff hlt, fallsFrom_iff hlt]
        by_cases hdrop : Drop data i
        · rcases direction_cases data i with hdir | hdir
          · rw [hdir, within_findShiftFrom (by decide) hlt.le (by omega)]
            simp [hdrop, hlt]
          · rw [hdir, within_findShiftFrom (by decide) hlt.le (by omega)]
            simp [hdrop, hlt]
        · rw [ih hlt.le (by omega)]
          simp [hdrop, hlt]
      · exact iff_of_false (not_within_last hlast hn) (fun h => by have := h.1.lt; omega)
      · obtain rfl : i = L := by omega
        exact iff_of_false not_within_findShiftFrom (fun h => by have := h.1.lt; omega)

/-- Behind a sample above 10 the I component falls through zero both with a positive Q and with
another one, each time with the next sample still in the buffer. -/
def Searchable (data : ℕ → Byte) (L : ℕ) : Prop :=
  ∃ s a b, 10 < (sample data s).i ∧ s ≤ a ∧ s ≤ b ∧ a + 1 < L ∧ b + 1 < L ∧
    Drop data a ∧ 0 < (sample data a).q ∧ Drop data b ∧ (sample data b).q ≤ 0

theorem direction_ne_minus (data : ℕ → Byte) (n : ℕ) : direction data n ≠ -1 ↔ 0 < (sample data n).q := by
  unfold direction
  split_ifs with h <;> simp [h]

theorem direction_ne_one (data : ℕ → Byte) (n : ℕ) : direction data n ≠ 1 ↔ (sample data n).q ≤ 0 := by
  unfold direction
  split_ifs with h
  · simp [h]
  · simpa using h

theorem searchable_iff (data : ℕ → Byte) (L : ℕ) :
    Searchable data L ↔ FallsFrom data L (-1) (findStart data 0 L).value ∧
      FallsFrom data L 1 (findStart data 0 L).value := by
  obtain ⟨-, -, hat, hbefore⟩ := findStart_spec data 0 L
  rw [Nat.zero_add] at hat
  constructor
  · rintro ⟨s, a, b, hs, hsa, hsb, ha, hb, hdropa, hqa, hdropb, hqb⟩
    have hstart : (findStart data 0 L).value ≤ s := by
      by_contra hlt
      have := hbefore s (Nat.zero_le s) (by omega)
      omega
    exact ⟨⟨a, by omega, ha, hdropa, (direction_ne_minus data a).mpr hqa⟩,
      ⟨b, by omega, hb, hdropb, (direction_ne_one data b).mpr hqb⟩⟩
  · rintro ⟨⟨a, hsa, ha, hdropa, hqa⟩, ⟨b, hsb, hb, hdropb, hqb⟩⟩
    exact ⟨_, a, b, hat (by omega), hsa, hsb, ha, hb, hdropa, (direction_ne_minus data a).mp hqa,
      hdropb, (direction_ne_one data b).mp hqb⟩

theorem within_firstBuffer {cfg : Config} (data_len : ℕ) (g : Globals) :
    Within (· < data_len / 2) (firstBuffer data cfg data_len g) ↔ Searchable data (data_len / 2) := by
  obtain ⟨-, hstart, -, -⟩ := findStart_spec data 0 (data_len / 2)
  rw [Nat.zero_add] at hstart
  rw [firstBuffer, within_bind, within_bind, within_bind, within_read, searchable_iff]
  rcases le_or_gt 2 data_len with hlen | hlen
  · rw [findShift, within_findShiftFrom_zero hstart (by omega)]
    constructor
    · exact fun h => h.2.1
    · intro h
      have hfirst := h.1.lt
      exact ⟨within_findStart (by omega), h, by omega, within_pure _⟩
  -- without a sample the first one is read all the same
  · constructor
    · rintro ⟨-, -, hfirst, -⟩
      omega
    · intro h
      have hfirst := h.1.lt
      omega

/-- A call reads its buffer and nothing else, unless it is for a first buffer in which the search
for a phase shift finds none. -/
theorem within_fsk (data : ℕ → Byte) (cfg : Config) (data_len : ℕ) (g : Globals) :
    Within (· < data_len / 2) (fsk data cfg data_len g) ↔
      (g.byte_count = 0 → Searchable data (data_len / 2)) := by
  have hrest : ∀ start : ℕ × Globals, start.1 ≤ data_len / 2 → Within (· < data_len / 2)
      (demodFrom data cfg start.1 start.2 0 (data_len / 2 - start.1)) :=
    fun start hstart => within_demodFrom (by omega) _ _
  rw [fsk, within_bind, startAt]
  by_cases hfirst : g.byte_count = 0
  · obtain ⟨-, hstart, -, -⟩ := findStart_spec data 0 (data_len / 2)
    rw [Nat.zero_add] at hstart
    rw [if_pos hfirst, within_firstBuffer]
    simp only [hfirst, forall_const]
    exact and_iff_left (hrest _ hstart)
  · rw [if_neg hfirst]
    simp only [hfirst, false_implies, iff_true]
    exact ⟨within_pure _, hrest _ (Nat.zero_le _)⟩

end Bounds

def defaultConfig : Config where
  single_mark := 263
  fmod := fun n => (n * 9121 % 2400000 / 9121 : ℕ)

/-- A carrier at the frequency that is tuned to: I at 20 throughout, and Q at 0. -/
def flatCarrier (n : ℕ) : Byte := if n % 2 = 0 then 20#8 else 0#8

/-- In 512 such samples there is no phase shift, and the search for one goes on behind them. -/
theorem fsk_flatCarrier :
    (∃ n ∈ (fsk flatCarrier defaultConfig 1024 {}).reads, 512 ≤ n) ∧
      ¬ ∀ data cfg data_len g, 2 ≤ data_len → Within (· < data_len / 2) (fsk data cfg data_len g) := by
  have hsample : ∀ n, (sample flatCarrier n).i = 20 := by
    intro n
    have heven : 2 * n % 2 = 0 := by omega
    simp only [sample, flatCarrier, heven, if_true]
    decide
  have hflat : ¬ Within (· < 512) (fsk flatCarrier defaultConfig 1024 {}) := by
    intro hwithin
    rw [fsk, within_bind] at hwithin
    obtain ⟨-, a, -, -, -, -, -, -, hdrop, -⟩ := (within_firstBuffer 1024 {}).mp hwithin.1
    rw [Drop, hsample, hsample] at hdrop
    exact absurd hdrop.2 (by decide)
  constructor
  · by_contra hnone
    refine hflat fun n hn => ?_
    by_contra hn'
    exact hnone ⟨n, hn, not_lt.mp hn'⟩
  · intro hall
    exact hflat (hall flatCarrier defaultConfig 1024 {} (by decide))

/-- What `read` returns, and what lies behind it in memory. -/
structure Buffer where
  bytes : List Byte
  behind : ℕ → Byte

/-- A byte of the input as a signed one, with the gain. -/
def convert (cfg : Config) (b : Byte) : Byte :=
  let b := if cfg.unsigned_input then b - 127#8 else b
  if 1 < cfg.gain then b * BitVec.ofInt 8 cfg.gain else b

def Buffer.data (cfg : Config) (b : Buffer) (n : ℕ) : Byte :=
  match b.bytes[n]? with
  | some byte => convert cfg byte
  | none => b.behind n

def Buffer.loud (cfg : Config) (b : Buffer) : ℕ :=
  (List.range ((b.bytes.length + 1) / 2)).countP
    (fun j => decide (cfg.carrierThreshold < (b.data cfg (2 * j)).toInt))

/-- `carrier_detect` is 0 between transmissions, 1 in one, and 2 in its last buffer. -/
structure Receiver where
  carrier_detect : ℕ := 0
  globals : Globals := {}

namespace Receiver

/-- Whether a transmission begins or ends with a buffer of so many loud samples. -/
def detect (r : Receiver) (k : ℕ) : Receiver :=
  if 100 < k then
    if r.carrier_detect = 0 then
      { carrier_detect := 1, globals := { r.globals with bit_count := 0, byte_count := 0 } }
    else r
  else if k < 10 then
    if r.carrier_detect = 1 then
      { carrier_detect := 2
        globals := { r.globals with stateMark := 0, out := r.globals.out ++ ['\n'] } }
    else r
  else r

structure Reads where
  reads : List ℕ
  iq_len : ℕ

def Reads.Inside (o : Reads) : Prop := ∀ n ∈ o.reads, n < o.iq_len

def step (cfg : Config) (r : Receiver) (b : Buffer) : Receiver × Reads :=
  let r := r.detect (b.loud cfg)
  if r.carrier_detect = 0 then (r, ⟨[], b.bytes.length / 2⟩)
  else
    let called := fsk (b.data cfg) cfg b.bytes.length r.globals
    (if r.carrier_detect = 2 then
        { carrier_detect := 0, globals := { called.value with byte_count := 0 } }
      else { r with globals := called.value },
      ⟨called.reads, b.bytes.length / 2⟩)

/-- Where the buffer is a transmission's first, the search in it finds a phase shift. -/
def Found (cfg : Config) (r : Receiver) (b : Buffer) : Prop :=
  (r.detect (b.loud cfg)).carrier_detect ≠ 0 → (r.detect (b.loud cfg)).globals.byte_count = 0 →
    Searchable (b.data cfg) (b.bytes.length / 2)

theorem step_inside_iff (cfg : Config) (r : Receiver) (b : Buffer) :
    (step cfg r b).2.Inside ↔ Found cfg r b := by
  rw [step, Found]
  dsimp only
  by_cases hidle : (r.detect (b.loud cfg)).carrier_detect = 0
  · rw [if_pos hidle]
    simp [hidle, Reads.Inside]
  · rw [if_neg hidle]
    simp only [ne_eq, hidle, not_false_eq_true, forall_const]
    exact within_fsk _ cfg _ _

/-- Every call reads its buffer and nothing else exactly if, should the buffer be the first, there is
a phase shift to be found in it; and so does every run, call by call. -/
theorem demod_inside_iff (cfg : Config) :
    (∀ data data_len g, Within (· < data_len / 2) (fsk data cfg data_len g) ↔
      (g.byte_count = 0 → Searchable data (data_len / 2))) ∧
    ∀ (r : Receiver) (buffers : List Buffer),
      (∀ o ∈ (Machine.run (step cfg) r buffers).2, o.Inside) ↔
        Machine.Admitted (step cfg) (Found cfg) r buffers := by
  constructor
  · intro data data_len g
    exact within_fsk data cfg data_len g
  · exact Machine.outputs_iff_admitted (step_inside_iff cfg)

end Receiver

end InsteonRf.Fsk2Demod
