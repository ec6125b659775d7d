import InsteonRf.Packet
import InsteonRf.Lib.Machine
import InsteonRf.Lib.Spans
import Mathlib.Data.List.ReduceOption

/-!
# The SDR's stream

A thread reads the capture tool's pipe and queues chunks of whole I/Q pairs, each with the index of
its first sample; where the queue is full the chunk is dropped. The demodulator collects the chunks
and judges the bursts of a hop at a time, with an overlap kept behind it for the packets that
begin there.
-/
namespace InsteonRf.Sdr
open Spans

def hopS : ℚ := 1 / 5

def overlapS : ℚ := 3 / 25

/-- A chunk on the queue, and the stream index of its first sample. -/
structure Item where
  chunk : List Byte
  first : ℕ

/-- What a read of the pipe returns, and whether the queue is full by then. -/
structure Read where
  bytes : List Byte
  full : Bool

/-- The local variables of `pump`. -/
structure Pump where
  pos : ℕ := 0
  carry : List Byte := []
  dropped_chunks : ℕ := 0

/-- Whole I/Q pairs, and an odd trailing byte. -/
def splitPairs (chunk : List Byte) : List Byte × List Byte :=
  if chunk.length % 2 ≠ 0 then (chunk.dropLast, chunk.drop (chunk.length - 1)) else (chunk, [])

/-- The body of the loop of `pump`. -/
def Pump.read (lossless : Bool) (p : Pump) (r : Read) : Pump × Option Item :=
  let pairs := splitPairs (p.carry ++ r.bytes)
  let next := { p with pos := p.pos + pairs.1.length / 2, carry := pairs.2 }
  if lossless || !r.full then (next, some ⟨pairs.1, p.pos⟩)
  else ({ next with dropped_chunks := p.dropped_chunks + 1 }, none)

def untilEnd (reads : List Read) : List Read := reads.takeWhile (fun r => !r.bytes.isEmpty)

def stream (reads : List Read) : List Byte := (untilEnd reads).flatMap Read.bytes

def queued (lossless : Bool) (reads : List Read) : List Item :=
  (Machine.run (Pump.read lossless) {} (untilEnd reads)).2.reduceOption

/-- `_start_reader`: what goes through the queue, the end of the stream included. -/
def startReader (lossless : Bool) (reads : List Read) : List (Option Item) :=
  (queued lossless reads).map some ++ [none]

structure Burst where
  bits : Bits
  start : ℕ
  sps : ℚ
  header_index : Option ℕ

structure Pass where
  buf : List Byte
  base : ℕ
  final : Bool
  keep : ℕ := 0

namespace Pass

def limit (p : Pass) : ℕ := (if p.final then p.buf.length else p.buf.length - p.keep) / 2

def n (p : Pass) : ℕ := p.buf.length / 2

/-- Neither for the next pass nor still arriving. -/
def keeps (p : Pass) (b : Burst) : Bool :=
  !decide (p.limit ≤ b.start) &&
    !(b.header_index.isNone && !p.final && decide ((p.n : ℚ) ≤ b.start + b.bits.length * b.sps))

def bursts (demodulate : List Byte → List Burst) (p : Pass) : List Burst :=
  if p.buf.length < 2 then [] else (demodulate p.buf).filter p.keeps

end Pass

/-- The local variables of `_iter_numpy`. -/
structure Consumer where
  buf : List Byte := []
  base : ℕ := 0

def hop (rate : ℕ) : ℕ := 2 * ⌊hopS * rate⌋₊

def overlap (rate : ℕ) : ℕ := 2 * ⌊overlapS * rate⌋₊

namespace Consumer

def finalPass (c : Consumer) : Pass := { buf := c.buf, base := c.base, final := true }

/-- Finish what is buffered when the next chunk does not follow it. -/
def closeGap (c : Consumer) (first : ℕ) : Consumer × List Pass :=
  if c.buf ≠ [] ∧ first ≠ c.base + c.buf.length / 2 then ({ c with buf := [] }, [c.finalPass])
  else (c, [])

def append (c : Consumer) (item : Item) : Consumer :=
  { buf := c.buf ++ item.chunk, base := if c.buf = [] then item.first else c.base }

/-- A pass once a hop and an overlap are buffered. -/
def hopPass (c : Consumer) (rate : ℕ) : Consumer × List Pass :=
  if hop rate + overlap rate ≤ c.buf.length then
    let cut := c.buf.length - overlap rate
    let cut := cut - cut % 2
    ({ buf := c.buf.drop cut, base := c.base + cut / 2 },
      [{ buf := c.buf, base := c.base, final := false, keep := overlap rate }])
  else (c, [])

def receive (rate : ℕ) (c : Consumer) : Option Item → Consumer × List Pass
  | none => (c, [c.finalPass])
  | some item =>
      let closed := c.closeGap item.first
      let hopped := (closed.1.append item).hopPass rate
      (hopped.1, closed.2 ++ hopped.2)

end Consumer

/-- `_iter_numpy`: the passes over what comes through the queue. -/
def iterNumpy (rate : ℕ) (chunks : List (Option Item)) : List Pass :=
  (Machine.run (Consumer.receive rate) {} chunks).2.flatten

/-- Whole samples, with the stream index of the first. -/
structure Placed (s bytes : List Byte) (first : ℕ) : Prop where
  even : bytes.length % 2 = 0
  pre : bytes <+: s.drop (2 * first)

namespace Placed
variable {s t bytes more : List Byte} {first : ℕ}

theorem nil (s : List Byte) (first : ℕ) : Placed s [] first := ⟨rfl, List.nil_prefix⟩

theorem mono (h : Placed s bytes first) (t : List Byte) : Placed (s ++ t) bytes first := by
  refine ⟨h.even, h.pre.trans ?_⟩
  rw [List.drop_append]
  exact List.prefix_append _ _

theorem append (h : Placed s bytes first) (hmore : Placed s more (first + bytes.length / 2)) :
    Placed s (bytes ++ more) first := by
  obtain ⟨rest, hrest⟩ := h.pre
  have heven := h.even
  have hevenMore := hmore.even
  have hnext : s.drop (2 * (first + bytes.length / 2)) = rest := by
    rw [show 2 * (first + bytes.length / 2) = 2 * first + bytes.length by omega, ← List.drop_drop,
      ← hrest, List.drop_left]
  refine ⟨?_, ?_⟩
  · rw [List.length_append]
    omega
  · rw [← hrest, List.prefix_append_right_inj, ← hnext]
    exact hmore.pre

theorem drop (h : Placed s bytes first) {cut : ℕ} (hcut : cut % 2 = 0) :
    Placed s (bytes.drop cut) (first + cut / 2) := by
  have heven := h.even
  refine ⟨?_, ?_⟩
  · rw [List.length_drop]
    omega
  · rw [show 2 * (first + cut / 2) = 2 * first + cut by omega, ← List.drop_drop]
    exact h.pre.drop cut

end Placed

def Item.span (i : Item) : ℕ × ℕ := (i.first, i.first + i.chunk.length / 2)

theorem splitPairs_spec (chunk : List Byte) :
    (splitPairs chunk).1 ++ (splitPairs chunk).2 = chunk ∧ (splitPairs chunk).1.length % 2 = 0 ∧
      (splitPairs chunk).2.length ≤ 1 := by
  rw [splitPairs]
  split_ifs with hodd
  · refine ⟨?_, ?_, ?_⟩
    · rw [List.dropLast_eq_take, List.take_append_drop]
    · rw [List.length_dropLast]
      omega
    · rw [List.length_drop]
      omega
  · exact ⟨List.append_nil chunk, not_not.mp hodd, Nat.zero_le 1⟩

/-- All that is read is counted as samples, apart from a lone byte that is carried over. -/
structure Reading (s : List Byte) (p : Pump) : Prop where
  carry : p.carry = s.drop (2 * p.pos)
  length : s.length = 2 * p.pos + p.carry.length
  short : p.carry.length ≤ 1

theorem reading_start : Reading [] {} := ⟨rfl, rfl, Nat.zero_le 1⟩

namespace Reading
variable {s : List Byte} {p : Pump} {lossless : Bool}

theorem read_state (p : Pump) (lossless : Bool) (r : Read) :
    (p.read lossless r).1.pos = p.pos + (splitPairs (p.carry ++ r.bytes)).1.length / 2 ∧
      (p.read lossless r).1.carry = (splitPairs (p.carry ++ r.bytes)).2 := by
  unfold Pump.read
  split_ifs <;> exact ⟨rfl, rfl⟩

theorem read_item (p : Pump) (lossless : Bool) (r : Read) :
    (p.read lossless r).2 =
      if lossless || !r.full then some ⟨(splitPairs (p.carry ++ r.bytes)).1, p.pos⟩ else none := by
  unfold Pump.read
  split_ifs <;> rfl

/-- The bytes at hand are those of the stream from the current sample on. -/
theorem drop_eq (h : Reading s p) (bytes : List Byte) :
    (s ++ bytes).drop (2 * p.pos) = p.carry ++ bytes := by
  have hlength := h.length
  rw [List.drop_append_of_le_length (by omega), h.carry]

theorem read_ok (h : Reading s p) (lossless : Bool) (r : Read) :
    Reading (s ++ r.bytes) (p.read lossless r).1 := by
  obtain ⟨hwhole, heven, hshort⟩ := splitPairs_spec (p.carry ++ r.bytes)
  obtain ⟨hpos, hcarry⟩ := read_state p lossless r
  generalize splitPairs (p.carry ++ r.bytes) = pairs at hwhole heven hshort hpos hcarry
  have hlength := h.length
  have hsplit := congrArg List.length hwhole
  rw [List.length_append, List.length_append] at hsplit
  have hnext : 2 * (p.pos + pairs.1.length / 2) = 2 * p.pos + pairs.1.length := by omega
  refine ⟨?_, ?_, hcarry ▸ hshort⟩
  · rw [hcarry, hpos, hnext, ← List.drop_drop, h.drop_eq, ← hwhole, List.drop_left]
  · rw [hcarry, hpos, List.length_append]
    omega

theorem item_ok (h : Reading s p) {r : Read} {i : Item} (hi : i ∈ (p.read lossless r).2) :
    i.span = (p.pos, (p.read lossless r).1.pos) ∧ Placed (s ++ r.bytes) i.chunk i.first := by
  obtain ⟨hwhole, heven, -⟩ := splitPairs_spec (p.carry ++ r.bytes)
  rw [read_item] at hi
  split_ifs at hi
  · cases hi
    refine ⟨?_, heven, ?_⟩
    · rw [(read_state p lossless r).1]
      rfl
    · rw [h.drop_eq]
      exact ⟨_, hwhole⟩
  · cases hi

theorem pos_le (p : Pump) (lossless : Bool) (r : Read) : p.pos ≤ (p.read lossless r).1.pos := by
  rw [(read_state p lossless r).1]
  exact Nat.le_add_right _ _

end Reading

/-- What a run of reads queues: chunks at their true places, in order, and without a gap where
nothing is dropped. -/
theorem run_reads {s : List Byte} {p : Pump} (h : Reading s p) (lossless : Bool)
    (reads : List Read) :
    Reading (s ++ reads.flatMap Read.bytes) (Machine.run (Pump.read lossless) p reads).1 ∧
      Within p.pos ((Machine.run (Pump.read lossless) p reads).2.reduceOption.map Item.span)
        (Machine.run (Pump.read lossless) p reads).1.pos ∧
      (∀ i ∈ (Machine.run (Pump.read lossless) p reads).2.reduceOption,
        Placed (s ++ reads.flatMap Read.bytes) i.chunk i.first) ∧
      ((∀ r ∈ reads, (lossless || !r.full) = true) →
        points ((Machine.run (Pump.read lossless) p reads).2.reduceOption.map Item.span) =
          Set.Ico p.pos (Machine.run (Pump.read lossless) p reads).1.pos) := by
  induction reads generalizing s p with
  | nil =>
      refine ⟨?_, le_rfl, fun _ hi => absurd hi List.not_mem_nil, fun _ => ?_⟩
      · rw [List.flatMap_nil, List.append_nil]
        exact h
      · exact points_nil.trans (Set.Ico_self p.pos).symm
  | cons r reads ih =>
      have hpos := Reading.pos_le p lossless r
      obtain ⟨hreading, hwithin, hplaced, hpoints⟩ := ih (h.read_ok lossless r)
      rw [List.append_assoc, ← List.flatMap_cons] at hreading
      simp only [List.append_assoc, ← List.flatMap_cons] at hplaced
      rw [Machine.run_cons]
      cases hitem : (p.read lossless r).2 with
      | none =>
          rw [List.reduceOption_cons_of_none]
          refine ⟨hreading, hwithin.mono_left hpos, hplaced, fun hkept => ?_⟩
          rw [Reading.read_item, if_pos (hkept r List.mem_cons_self)] at hitem
          cases hitem
      | some i =>
          obtain ⟨hspan, hplace⟩ := h.item_ok hitem
          rw [List.reduceOption_cons_of_some, List.map_cons, hspan]
          refine ⟨hreading, ⟨le_rfl, hpos, hwithin⟩, ?_, ?_⟩
          · refine List.forall_mem_cons.mpr ⟨?_, hplaced⟩
            rw [List.flatMap_cons, ← List.append_assoc]
            exact hplace.mono _
          · intro hkept
            rw [points_cons, hpoints fun r hr => hkept r (List.mem_cons_of_mem _ hr)]
            exact Set.Ico_union_Ico_eq_Ico hpos hwithin.le

def Pass.span (p : Pass) : ℕ × ℕ := (p.base, p.base + p.limit)

def Consumer.span (c : Consumer) : ℕ × ℕ := (c.base, c.base + c.buf.length / 2)

/-- What becomes of the buffered samples and those of new chunks: passes judge them in order, and
those no pass has judged are buffered behind them. -/
structure Judged (s : List Byte) (c c' : Consumer) (passes : List Pass) (spans : List (ℕ × ℕ)) :
    Prop where
  order : Within c.base (passes.map Pass.span) c'.base
  points : points (passes.map Pass.span ++ [c'.span]) = points (c.span :: spans)
  passes : ∀ p ∈ passes, Placed s p.buf p.base
  placed : Placed s c'.buf c'.base

namespace Judged
variable {s : List Byte} {c c' c'' : Consumer} {ps qs : List Pass} {spans : List (ℕ × ℕ)}

theorem refl (h : Placed s c.buf c.base) : Judged s c c [] [] :=
  ⟨le_rfl, rfl, fun _ hp => absurd hp List.not_mem_nil, h⟩

theorem trans (h : Judged s c c' ps spans) (h' : Judged s c' c'' qs []) :
    Judged s c c'' (ps ++ qs) spans := by
  refine ⟨?_, ?_, ?_, h'.placed⟩
  · rw [List.map_append]
    exact h.order.append h'.order
  · rw [List.map_append, List.append_assoc, points_append, h'.points, ← points_append, h.points]
  · intro p hp
    rcases List.mem_append.mp hp with hp | hp
    · exact h.passes p hp
    · exact h'.passes p hp

end Judged

namespace Consumer
variable {s : List Byte} {c : Consumer} {rate : ℕ}

theorem take_in (c : Consumer) (item : Item) :
    (item.first = c.base + c.buf.length / 2 ∧ (c.closeGap item.first).2 = [] ∧
      (c.closeGap item.first).1.append item = ⟨c.buf ++ item.chunk, c.base⟩) ∨
    (c.closeGap item.first).1.append item = ⟨item.chunk, item.first⟩ ∧
      (c.buf = [] ∧ (c.closeGap item.first).2 = [] ∨
        (c.closeGap item.first).2 = [c.finalPass]) := by
  unfold closeGap
  split_ifs with hgap
  · exact .inr ⟨rfl, .inr rfl⟩
  · by_cases hempty : c.buf = []
    · refine .inr ⟨?_, .inl ⟨hempty, rfl⟩⟩
      rw [append, hempty, if_pos rfl, List.nil_append]
    · refine .inl ⟨?_, rfl, ?_⟩
      · by_contra hne
        exact hgap ⟨hempty, hne⟩
      · rw [append, if_neg hempty]

theorem take_in_ok (h : Placed s c.buf c.base) {item : Item}
    (hitem : Placed s item.chunk item.first) (hle : c.span.2 ≤ item.first) :
    Judged s c ((c.closeGap item.first).1.append item) (c.closeGap item.first).2 [item.span] ∧
      ((c.closeGap item.first).1.append item).span.2 = item.span.2 := by
  have heven := h.even
  have hevenItem := hitem.even
  rcases take_in c item with ⟨hfirst, hpasses, hnext⟩ | ⟨hnext, ⟨hempty, hpasses⟩ | hpasses⟩
  · rw [hpasses, hnext]
    have hlength : (c.buf ++ item.chunk).length / 2 = c.buf.length / 2 + item.chunk.length / 2 := by
      rw [List.length_append]
      omega
    refine ⟨⟨le_rfl, ?_, fun _ hp => absurd hp List.not_mem_nil, ?_⟩, ?_⟩
    · ext k
      simp [span, Item.span, hfirst]
      omega
    · exact h.append (hfirst ▸ hitem)
    · simp only [span, Item.span, hlength, hfirst, Nat.add_assoc]
  · rw [hpasses, hnext]
    have hstart : c.base ≤ item.first := (Nat.le_add_right _ _).trans hle
    refine ⟨⟨hstart, ?_, fun _ hp => absurd hp List.not_mem_nil, hitem⟩, rfl⟩
    simp [span, Item.span, hempty]
  · rw [hpasses, hnext]
    refine ⟨⟨⟨le_rfl, Nat.le_add_right _ _, hle⟩, rfl, ?_, hitem⟩, rfl⟩
    intro p hp
    rw [List.mem_singleton.mp hp]
    exact h

theorem hopPass_ok (h : Placed s c.buf c.base) (rate : ℕ) :
    Judged s c (c.hopPass rate).1 (c.hopPass rate).2 [] ∧ (c.hopPass rate).1.span.2 = c.span.2 := by
  have heven := h.even
  unfold hopPass
  split_ifs with hfull
  · -- both lengths are even, so the pass ends where the buffer is cut
    have hkeep : overlap rate % 2 = 0 := Nat.mul_mod_right 2 _
    generalize overlap rate = keep at hfull hkeep ⊢
    have hcut : (c.buf.length - keep) % 2 = 0 := by omega
    have hpass : Pass.span ⟨c.buf, c.base, false, keep⟩ =
        (c.base, c.base + (c.buf.length - keep) / 2) := rfl
    simp only [hcut, Nat.sub_zero]
    have hrest : c.base + (c.buf.length - keep) / 2 +
        (c.buf.drop (c.buf.length - keep)).length / 2 = c.base + c.buf.length / 2 := by
      rw [List.length_drop]
      omega
    refine ⟨⟨?_, ?_, ?_, h.drop hcut⟩, hrest⟩
    · exact ⟨le_rfl, Nat.le_add_right _ _, le_rfl⟩
    · simp only [List.map_cons, List.map_nil, List.singleton_append, points_cons, hpass, span, hrest]
      rw [← Set.union_assoc, Set.Ico_union_Ico_eq_Ico (Nat.le_add_right _ _) (by omega)]
    · intro p hp
      rw [List.mem_singleton.mp hp]
      exact h
  · exact ⟨Judged.refl h, rfl⟩

theorem receive_ok (h : Placed s c.buf c.base) (rate : ℕ) {item : Item}
    (hitem : Placed s item.chunk item.first) (hle : c.span.2 ≤ item.first) :
    Judged s c (c.receive rate (some item)).1 (c.receive rate (some item)).2 [item.span] ∧
      (c.receive rate (some item)).1.span.2 = item.span.2 := by
  obtain ⟨htaken, hend⟩ := take_in_ok h hitem hle
  obtain ⟨hhop, hsame⟩ := hopPass_ok htaken.placed rate
  exact ⟨htaken.trans hhop, hsame.trans hend⟩

end Consumer

/-- Over a run the passes judge, in order, what is buffered and what the chunks hold. -/
theorem run_receive {s : List Byte} {c : Consumer} (h : Placed s c.buf c.base) (rate : ℕ)
    {items : List Item} (hitems : ∀ i ∈ items, Placed s i.chunk i.first) {stop : ℕ}
    (horder : Within c.span.2 (items.map Item.span) stop) :
    Within c.base (((Machine.run (Consumer.receive rate) c
        (items.map some ++ [none])).2.flatten).map Pass.span) stop ∧
      points (((Machine.run (Consumer.receive rate) c
        (items.map some ++ [none])).2.flatten).map Pass.span) =
          points (c.span :: items.map Item.span) ∧
      ∀ p ∈ (Machine.run (Consumer.receive rate) c (items.map some ++ [none])).2.flatten,
        Placed s p.buf p.base := by
  induction items generalizing c with
  | nil =>
      refine ⟨⟨le_rfl, Nat.le_add_right _ _, horder⟩, rfl, ?_⟩
      intro p hp
      rw [List.mem_singleton.mp hp]
      exact h
  | cons item items ih =>
      obtain ⟨hitem, hitems⟩ := List.forall_mem_cons.mp hitems
      obtain ⟨hstep, hend⟩ := Consumer.receive_ok h rate hitem horder.1
      obtain ⟨hwithin, hpoints, hplaced⟩ := ih hstep.placed hitems (hend ▸ horder.2.2)
      rw [List.map_cons, List.cons_append, Machine.run_cons, List.flatten_cons]
      refine ⟨?_, ?_, ?_⟩
      · rw [List.map_append]
        exact hstep.order.append hwithin
      · have hbuffered := hstep.points
        rw [points_append, points_cons, points_nil, Set.union_empty] at hbuffered
        rw [List.map_append, points_append, hpoints, points_cons, ← Set.union_assoc, hbuffered,
          ← points_append]
        rfl
      · intro p hp
        rcases List.mem_append.mp hp with hp | hp
        · exact hstep.passes p hp
        · exact hplaced p hp

/-- Only the last pass of a stretch keeps no overlap. -/
theorem keep_of_receive {rate : ℕ} {c : Consumer} {i : Option Item} {p : Pass}
    (hp : p ∈ (c.receive rate i).2) : p.final = true ∨ p.keep = overlap rate := by
  cases i with
  | none =>
      rw [List.mem_singleton.mp hp]
      exact .inl rfl
  | some item =>
      rcases List.mem_append.mp hp with hp | hp
      · unfold Consumer.closeGap at hp
        split_ifs at hp
        · rw [List.mem_singleton.mp hp]
          exact .inl rfl
        · exact absurd hp List.not_mem_nil
      · unfold Consumer.hopPass at hp
        split_ifs at hp
        · rw [List.mem_singleton.mp hp]
          exact .inr rfl
        · exact absurd hp List.not_mem_nil

theorem keep_of_run {rate : ℕ} (c : Consumer) (chunks : List (Option Item)) :
    ∀ p ∈ (Machine.run (Consumer.receive rate) c chunks).2.flatten,
      p.final = true ∨ p.keep = overlap rate := by
  induction chunks generalizing c with
  | nil => exact fun _ hp => absurd hp List.not_mem_nil
  | cons i chunks ih =>
      rw [Machine.run_cons, List.flatten_cons]
      intro p hp
      rcases List.mem_append.mp hp with hp | hp
      · exact keep_of_receive hp
      · exact ih _ p hp

namespace Pass
variable {demodulate : List Byte → List Burst} {p : Pass} {b : Burst}

theorem start_lt_limit (hb : b ∈ p.bursts demodulate) : b.start < p.limit := by
  unfold bursts at hb
  split_ifs at hb
  · exact absurd hb List.not_mem_nil
  · obtain ⟨-, hkeeps⟩ := List.mem_filter.mp hb
    simp only [keeps, Bool.and_eq_true, Bool.not_eq_true', decide_eq_false_iff_not] at hkeeps
    exact Nat.lt_of_not_le hkeeps.1

/-- Where the header is located, a burst is kept by the pass whose range it starts in. -/
theorem mem_bursts_of_header (hheader : b.header_index.isSome) :
    b ∈ p.bursts demodulate ↔ b ∈ demodulate p.buf ∧ b.start < p.limit := by
  constructor
  · intro hb
    refine ⟨?_, start_lt_limit hb⟩
    unfold bursts at hb
    split_ifs at hb
    · exact absurd hb List.not_mem_nil
    · exact (List.mem_filter.mp hb).1
  · rintro ⟨hb, hlt⟩
    have hsome : b.header_index.isNone = false := by
      rw [← Option.not_isSome, hheader]
      rfl
    have hbuf : ¬ p.buf.length < 2 := by
      intro hshort
      have hlimit : p.limit ≤ p.buf.length / 2 := by
        unfold limit
        split_ifs <;> omega
      omega
    rw [bursts, if_neg hbuf, List.mem_filter]
    exact ⟨hb, by simp [keeps, hsome, hlt]⟩

theorem overlap_behind {rate : ℕ} (hkeep : p.keep = overlap rate) (hfinal : p.final = false)
    (hb : b ∈ p.bursts demodulate) :
    b.start + 1 + ⌊overlapS * rate⌋₊ ≤ p.n ∧ b.start + overlapS * rate < p.n := by
  have hstart := start_lt_limit hb
  have hlimit : p.limit = (p.buf.length - p.keep) / 2 := by
    rw [limit, hfinal, if_neg Bool.false_ne_true]
  rw [hlimit, hkeep, overlap] at hstart
  have hbehind : b.start + 1 + ⌊overlapS * rate⌋₊ ≤ p.n := by
    rw [n]
    omega
  refine ⟨hbehind, ?_⟩
  have hfloor := Nat.lt_floor_add_one (overlapS * rate)
  have hcast : ((b.start + 1 + ⌊overlapS * rate⌋₊ : ℕ) : ℚ) ≤ p.n := Nat.cast_le.mpr hbehind
  push_cast at hcast
  linarith

end Pass

/-- Where nothing is dropped, every sample is delivered, and no lone byte. -/
theorem delivered_iff {lossless : Bool} {reads : List Read}
    (hkept : ∀ r ∈ reads, (lossless || !r.full) = true) (k : ℕ) :
    (∃ i ∈ queued lossless reads, i.first ≤ k ∧ k < i.first + i.chunk.length / 2) ↔
      2 * k + 1 < (stream reads).length := by
  obtain ⟨hreading, -, -, hpoints⟩ := run_reads reading_start lossless (untilEnd reads)
  have hall := hpoints fun r hr => hkept r ((List.takeWhile_prefix _).subset hr)
  refine mem_points_map.symm.trans ((Set.ext_iff.mp hall k).trans ?_)
  have hlength : (stream reads).length = _ := hreading.length
  have hshort := hreading.short
  have hstart : ({} : Pump).pos = 0 := rfl
  rw [Set.mem_Ico, hlength, hstart]
  constructor
  · omega
  · omega

/-- However the stream is read and whatever is dropped, each queued chunk is at its true place,
the passes judge each delivered sample once and in order, and a burst kept by a pass that is not
final has an overlap behind it. -/
theorem passes_cover (demodulate : List Byte → List Burst) (rate : ℕ) (lossless : Bool)
    (reads : List Read) :
    (∀ i ∈ queued lossless reads,
      i.chunk.length % 2 = 0 ∧ i.chunk <+: (stream reads).drop (2 * i.first)) ∧
    (iterNumpy rate (startReader lossless reads)).Pairwise
      (fun p q => p.base + p.limit ≤ q.base) ∧
    (∀ k, (∃ p ∈ iterNumpy rate (startReader lossless reads),
        p.base ≤ k ∧ k < p.base + p.limit) ↔
      ∃ i ∈ queued lossless reads, i.first ≤ k ∧ k < i.first + i.chunk.length / 2) ∧
    ((∀ r ∈ reads, (lossless || !r.full) = true) → ∀ k,
      (∃ i ∈ queued lossless reads, i.first ≤ k ∧ k < i.first + i.chunk.length / 2) ↔
        2 * k + 1 < (stream reads).length) ∧
    ∀ p ∈ iterNumpy rate (startReader lossless reads),
      p.buf <+: (stream reads).drop (2 * p.base) ∧
      (∀ b ∈ p.bursts demodulate, b.start < p.limit) ∧
      (∀ b : Burst, b.header_index.isSome →
        (b ∈ p.bursts demodulate ↔ b ∈ demodulate p.buf ∧ b.start < p.limit)) ∧
      (p.final = false → ∀ b ∈ p.bursts demodulate,
        b.start + 1 + ⌊overlapS * rate⌋₊ ≤ p.n ∧ b.start + overlapS * rate < p.n) := by
  obtain ⟨-, hwithin, hplaced, -⟩ := run_reads reading_start lossless (untilEnd reads)
  have hempty : Placed (stream reads) ({} : Consumer).buf ({} : Consumer).base := Placed.nil _ 0
  obtain ⟨horder, hcover, hbuffers⟩ := run_receive hempty rate hplaced hwithin
  refine ⟨fun i hi => ⟨(hplaced i hi).even, (hplaced i hi).pre⟩, ?_, ?_, delivered_iff, ?_⟩
  · exact List.pairwise_map.mp horder.pairwise
  · intro k
    have hnone : Set.Ico ({} : Consumer).span.1 ({} : Consumer).span.2 = ∅ := Set.Ico_self 0
    rw [points_cons, hnone, Set.empty_union] at hcover
    exact mem_points_map.symm.trans ((Set.ext_iff.mp hcover k).trans mem_points_map)
  · intro p hp
    refine ⟨(hbuffers p hp).pre, fun b hb => Pass.start_lt_limit hb,
      fun b hheader => Pass.mem_bursts_of_header hheader, fun hfinal b hb => ?_⟩
    have hkeep := (keep_of_run _ _ p hp).resolve_left (Bool.eq_false_iff.mp hfinal)
    exact Pass.overlap_behind hkeep hfinal hb

end InsteonRf.Sdr
