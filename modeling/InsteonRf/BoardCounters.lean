import InsteonRf.BoardBlob
import InsteonRf.BoardGate
import InsteonRf.Cc1101
import Mathlib.Data.BitVec

/-!
# The board's counters

The radio task counts what it loses, the loop folds these counts into its own, gates and
publishes the captures it receives, and reports once a minute. The task and the loop interleave
in any way; the counters are of 32 bits and wrap.
-/
namespace InsteonRf.Board
open Cc1101 (Radio CC1101Capture)

/-- Steps of f_xtal / 2^14, in kHz. -/
def freqestKhz : ℚ := 26000000 / 16384 / 1000

structure Settings where
  rssi_floor : ℚ := -110
  manchester_gate : ℕ := 4
  manchester_gate_errors : ℕ := 2
  sync_word : BitVec 32 := 0x3155
  mqtt : Bool := true

structure Counters where
  seq : BitVec 32 := 0
  captures : BitVec 32 := 0
  accepted : BitVec 32 := 0
  lost : BitVec 32 := 0
  last_minute_mark : BitVec 32 := 0
  captures_at_mark : BitVec 32 := 0
  accepted_at_mark : BitVec 32 := 0
  lost_at_mark : BitVec 32 := 0
  freq_offset_sum : ℚ := 0
  freq_offset_n : BitVec 32 := 0
  last_rssi : Option ℚ := none
  last_accepted_rssi : Option ℚ := none
  last_accepted_ms : BitVec 32 := 0

structure Minute where
  captures : BitVec 32
  accepted : BitVec 32
  lost : BitVec 32
  offset : Option ℚ

/-- The clocks a capture is stamped with: since boot, and of the day. -/
structure Clock where
  millis : BitVec 32
  micros : BitVec 32
  wall_ms : BitVec 64

structure Publication where
  seq : BitVec 32
  t : BitVec 64
  us : BitVec 32
  rssi : ℚ
  len : ℕ
  sw : BitVec 32
  b : List Char

namespace Counters

def tickMinute (c : Counters) (now : BitVec 32) : Counters × Option Minute :=
  if now - c.last_minute_mark < 60000 then (c, none)
  else
    ({ c with
        captures_at_mark := c.captures, accepted_at_mark := c.accepted, lost_at_mark := c.lost
        freq_offset_sum := 0, freq_offset_n := 0, last_minute_mark := now },
      some {
        captures := c.captures - c.captures_at_mark
        accepted := c.accepted - c.accepted_at_mark
        lost := c.lost - c.lost_at_mark
        offset := if c.freq_offset_n = 0 then none else some (c.freq_offset_sum / c.freq_offset_n.toNat) })

def countLost (c : Counters) (n : BitVec 32) : Counters := { c with lost := c.lost + n }

/-- An offset is added up unless the radio cannot measure it. -/
def noteOffset (c : Counters) (offset_khz : Option ℚ) : Counters :=
  match offset_khz with
  | none => c
  | some khz =>
      { c with freq_offset_sum := c.freq_offset_sum + khz, freq_offset_n := c.freq_offset_n + 1 }

/-- The capture counts, whether or not it is dropped. -/
def noteCapture (c : Counters) (rssi : ℚ) : Counters :=
  { c with captures := c.captures + 1, last_rssi := some rssi }

def noteAccepted (c : Counters) (rssi : ℚ) (clock : Clock) (offset_khz : Option ℚ) : Counters :=
  ({ c with
    accepted := c.accepted + 1, seq := c.seq + 1
    last_accepted_rssi := some rssi, last_accepted_ms := clock.millis } : Counters).noteOffset offset_khz

end Counters

def passes (settings : Settings) (buf : List Byte) (rssi : ℚ) : Bool :=
  decide (settings.rssi_floor ≤ rssi) &&
    manchesterGateOk settings.manchester_gate settings.manchester_gate_errors buf

/-- `publish_capture_`: stamped with when its first bit was on the air. -/
def publication (settings : Settings) (seq : BitVec 32) (buf : List Byte) (rssi : ℚ)
    (first_bit_us : BitVec 32) (clock : Clock) : Option Publication :=
  if settings.mqtt then
    some {
      seq, us := first_bit_us, rssi, len := buf.length, sw := settings.sync_word
      t := clock.wall_ms - ((clock.micros - first_bit_us).setWidth 64) / 1000
      b := captureBlob buf }
  else none

def processCapture (settings : Settings) (c : Counters) (buf : List Byte) (rssi : ℚ)
    (first_bit_us : BitVec 32) (offset_khz : Option ℚ) (clock : Clock) :
    Counters × Option Publication :=
  let c := c.noteCapture rssi
  if passes settings buf rssi then
    let c := c.noteAccepted rssi clock offset_khz
    (c, publication settings c.seq buf rssi first_bit_us clock)
  else (c, none)

/-- What the chip and the task do by themselves. -/
inductive TaskEvent where
  | arrive (b : Byte)
  | drain (now : BitVec 32)
  | iterate (rssi freqest : Byte)
  | endEarly
  | restart
  /-- `health_check_` finds an overflow before a drain does. -/
  | health

def healthCheck (r : Radio) : Radio :=
  if r.overflowed then { r with overflows := r.overflows + 1 }.restartRx else r

def TaskEvent.step (r : Radio) : TaskEvent → Radio × Cc1101.Shown
  | arrive b => r.step (.arrive b)
  | drain now => r.step (.drain now)
  | iterate rssi freqest => r.step (.iterate rssi freqest)
  | endEarly => r.step .endEarly
  | restart => r.step .restart
  | health => (healthCheck r, {})

/-- The radio, and the loop's own state. -/
structure Listener where
  radio : Radio
  counters : Counters := {}
  overflows_seen : BitVec 32 := 0
  queue_drops_seen : BitVec 32 := 0
  stalls_seen : BitVec 32 := 0

/-- A step of the task, or a part of the loop. The loop loads the task's counters before it
folds them; nothing but the loop reads what it folds them into. -/
inductive BoardEvent where
  | task (e : TaskEvent)
  | tick (now : BitVec 32)
  | foldOverflows
  | foldDrops
  | foldStalls
  | receive (clock : Clock)

structure Reported where
  finished : Option (CC1101Capture × Bool) := none
  received : Option CC1101Capture := none
  published : Option Publication := none
  minute : Option Minute := none

namespace Listener

def foldOverflows (s : Listener) : Listener :=
  let overflows := BitVec.ofNat 32 s.radio.overflows
  if overflows = s.overflows_seen then s
  else { s with
    counters := s.counters.countLost (overflows - s.overflows_seen), overflows_seen := overflows }

def foldDrops (s : Listener) : Listener :=
  let drops := BitVec.ofNat 32 s.radio.queue_drops
  if drops = s.queue_drops_seen then s
  else { s with
    counters := s.counters.countLost (drops - s.queue_drops_seen), queue_drops_seen := drops }

def foldStalls (s : Listener) : Listener :=
  let stalls := BitVec.ofNat 32 s.radio.stalls
  if stalls = s.stalls_seen then s
  else { s with
    counters := s.counters.countLost (stalls - s.stalls_seen), stalls_seen := stalls }

def receive (settings : Settings) (s : Listener) (clock : Clock) : Listener × Reported :=
  match s.radio.queue with
  | [] => (s, {})
  | c :: _ =>
      let answer := processCapture settings s.counters (c.data.take c.len) c.rssi c.first_bit_us
        (some (c.freqest * freqestKhz)) clock
      ({ s with radio := (s.radio.step .receive).1, counters := answer.1 },
        { received := some c, published := answer.2 })

def step (settings : Settings) (s : Listener) : BoardEvent → Listener × Reported
  | .task e =>
      ({ s with radio := (e.step s.radio).1 }, { finished := (e.step s.radio).2.finished })
  | .tick now =>
      ({ s with counters := (s.counters.tickMinute now).1 },
        { minute := (s.counters.tickMinute now).2 })
  | .foldOverflows => (s.foldOverflows, {})
  | .foldDrops => (s.foldDrops, {})
  | .foldStalls => (s.foldStalls, {})
  | .receive clock => s.receive settings clock

end Listener

/-- A board that has just started, at a clock from which the first minute counts. -/
def Listener.boot (capture_bytes : ℕ) (started : BitVec 32) : Listener :=
  { radio := Cc1101.start capture_bytes, counters := { last_minute_mark := started } }

def receivedOf (os : List Reported) : List CC1101Capture := os.filterMap Reported.received

def publishedOf (os : List Reported) : List Publication := os.filterMap Reported.published

def minutesOf (os : List Reported) : List Minute := os.filterMap Reported.minute

def finishedCount (os : List Reported) : ℕ := (os.filterMap Reported.finished).length

def passedCount (settings : Settings) (os : List Reported) : ℕ :=
  (receivedOf os).countP (fun c => passes settings (c.data.take c.len) c.rssi)

/-- The captures counted, against those the loop received and the task finished. -/
structure Counted (settings : Settings) (c : Counters) (radio : Radio) (os : List Reported) :
    Prop where
  captures : c.captures = BitVec.ofNat 32 (receivedOf os).length
  accepted : c.accepted = BitVec.ofNat 32 (passedCount settings os)
  seq : c.seq = c.accepted
  published : (publishedOf os).map Publication.seq =
    if settings.mqtt then
      (List.range (passedCount settings os)).map (fun k => BitVec.ofNat 32 (k + 1))
    else []
  finished : finishedCount os = (receivedOf os).length + radio.queue.length + radio.queue_drops

structure Marked (c : Counters) (os : List Reported) : Prop where
  captures : ((minutesOf os).map Minute.captures).sum = c.captures_at_mark
  accepted : ((minutesOf os).map Minute.accepted).sum = c.accepted_at_mark
  lost : ((minutesOf os).map Minute.lost).sum = c.lost_at_mark

structure Books (settings : Settings) (s : Listener) (os : List Reported) : Prop where
  counted : Counted settings s.counters s.radio os
  marked : Marked s.counters os
  lost : s.counters.lost = s.overflows_seen + s.queue_drops_seen + s.stalls_seen

section Snoc
variable (os : List Reported) (o : Reported)

theorem filterMap_snoc {α : Type*} (f : Reported → Option α) :
    (os ++ [o]).filterMap f = os.filterMap f ++ (f o).toList := by
  rw [List.filterMap_append, List.filterMap_cons]
  cases f o <;> rfl

theorem receivedOf_snoc : receivedOf (os ++ [o]) = receivedOf os ++ o.received.toList :=
  filterMap_snoc os o _

theorem publishedOf_snoc : publishedOf (os ++ [o]) = publishedOf os ++ o.published.toList :=
  filterMap_snoc os o _

theorem minutesOf_snoc : minutesOf (os ++ [o]) = minutesOf os ++ o.minute.toList :=
  filterMap_snoc os o _

theorem finishedCount_snoc :
    finishedCount (os ++ [o]) = finishedCount os + o.finished.toList.length := by
  rw [finishedCount, filterMap_snoc, List.length_append, finishedCount]

theorem passedCount_snoc (settings : Settings) :
    passedCount settings (os ++ [o]) = passedCount settings os +
      o.received.toList.countP (fun c => passes settings (c.data.take c.len) c.rssi) := by
  rw [passedCount, receivedOf_snoc, List.countP_append, passedCount]

end Snoc

variable {settings : Settings} {c c' : Counters} {radio radio' : Radio} {os : List Reported}
  {o : Reported}

theorem Counted.frame (h : Counted settings c radio os) (hcaptures : c'.captures = c.captures)
    (haccepted : c'.accepted = c.accepted) (hseq : c'.seq = c.seq) (hreceived : o.received = none)
    (hpublished : o.published = none)
    (hfinished : radio'.queue.length + radio'.queue_drops =
      radio.queue.length + radio.queue_drops + o.finished.toList.length) :
    Counted settings c' radio' (os ++ [o]) := by
  have hnone : (none : Option CC1101Capture).toList = [] := rfl
  constructor
  · rw [hcaptures, receivedOf_snoc, hreceived, hnone, List.append_nil]
    exact h.captures
  · rw [haccepted, passedCount_snoc, hreceived]
    exact h.accepted
  · rw [hseq, haccepted]
    exact h.seq
  · rw [publishedOf_snoc, passedCount_snoc, hpublished, hreceived, Option.toList_none,
      List.append_nil]
    exact h.published
  · rw [finishedCount_snoc, receivedOf_snoc, hreceived, hnone, List.append_nil, h.finished]
    omega

theorem Marked.frame (h : Marked c os) (hcaptures : c'.captures_at_mark = c.captures_at_mark)
    (haccepted : c'.accepted_at_mark = c.accepted_at_mark)
    (hlost : c'.lost_at_mark = c.lost_at_mark) (hminute : o.minute = none) :
    Marked c' (os ++ [o]) := by
  have hsame : minutesOf (os ++ [o]) = minutesOf os := by
    rw [minutesOf_snoc, hminute, Option.toList_none, List.append_nil]
  refine ⟨?_, ?_, ?_⟩
  · rw [hsame, hcaptures]
    exact h.captures
  · rw [hsame, haccepted]
    exact h.accepted
  · rw [hsame, hlost]
    exact h.lost

structure Processed (settings : Settings) (c c' : Counters) (pass : Bool)
    (published : Option Publication) : Prop where
  captures : c'.captures = c.captures + 1
  accepted : c'.accepted = c.accepted + if pass then 1 else 0
  seq : c'.seq = c.seq + if pass then 1 else 0
  lost : c'.lost = c.lost
  captures_at_mark : c'.captures_at_mark = c.captures_at_mark
  accepted_at_mark : c'.accepted_at_mark = c.accepted_at_mark
  lost_at_mark : c'.lost_at_mark = c.lost_at_mark
  published : published.toList.map Publication.seq =
    if settings.mqtt && pass then [c.seq + 1] else []

theorem processCapture_processed (settings : Settings) (c : Counters) (buf : List Byte) (rssi : ℚ)
    (first_bit_us : BitVec 32) (offset_khz : Option ℚ) (clock : Clock) :
    Processed settings c (processCapture settings c buf rssi first_bit_us offset_khz clock).1
      (passes settings buf rssi)
      (processCapture settings c buf rssi first_bit_us offset_khz clock).2 := by
  rw [processCapture]
  dsimp only
  cases passes settings buf rssi with
  | false =>
      rw [if_neg Bool.false_ne_true]
      refine ⟨rfl, (BitVec.add_zero _).symm, (BitVec.add_zero _).symm, rfl, rfl, rfl, rfl, ?_⟩
      rw [Bool.and_false]
      rfl
  | true =>
      rw [if_pos rfl, publication]
      have hseq : ((c.noteCapture rssi).noteAccepted rssi clock offset_khz).seq = c.seq + 1 := by
        cases offset_khz <;> rfl
      rw [hseq]
      refine ⟨?_, ?_, ?_, ?_, ?_, ?_, ?_, ?_⟩
      case refine_8 => cases settings.mqtt <;> rfl
      all_goals cases offset_khz <;> rfl

theorem Counted.receive (h : Counted settings c radio os) {e : CC1101Capture}
    {queue : List CC1101Capture} {published : Option Publication}
    (hdone : Processed settings c c' (passes settings (e.data.take e.len) e.rssi) published)
    (hqueue : radio.queue = e :: queue) :
    Counted settings c' { radio with queue }
      (os ++ [{ received := some e, published }]) := by
  have hone : ∀ n : ℕ, BitVec.ofNat 32 n + 1 = BitVec.ofNat 32 (n + 1) :=
    fun n => (BitVec.ofNat_add n 1).symm
  have hpassed : passedCount settings (os ++ [{ received := some e, published }]) =
      passedCount settings os +
        if passes settings (e.data.take e.len) e.rssi then 1 else 0 := by
    rw [passedCount_snoc]
    exact congrArg _ List.countP_singleton
  constructor
  · rw [hdone.captures, h.captures, receivedOf_snoc, Option.toList_some, List.length_append,
      List.length_singleton, hone]
  · rw [hdone.accepted, h.accepted, hpassed]
    cases passes settings (e.data.take e.len) e.rssi
    · exact BitVec.add_zero _
    · exact hone _
  · rw [hdone.seq, hdone.accepted, h.seq]
  · rw [publishedOf_snoc, List.map_append, hdone.published, hpassed, h.published, h.seq, h.accepted,
      hone]
    cases settings.mqtt
    · rfl
    · cases passes settings (e.data.take e.len) e.rssi
      · exact List.append_nil _
      · simp only [if_true, Bool.true_and, List.range_succ, List.map_append, List.map_singleton]
  · rw [finishedCount_snoc, receivedOf_snoc, h.finished, hqueue]
    simp only [Option.toList_none, Option.toList_some, List.length_append, List.length_cons,
      List.length_nil]
    omega

theorem Counters.tickMinute_keeps (c : Counters) (now : BitVec 32) :
    (c.tickMinute now).1.captures = c.captures ∧ (c.tickMinute now).1.accepted = c.accepted ∧
      (c.tickMinute now).1.seq = c.seq ∧ (c.tickMinute now).1.lost = c.lost := by
  rw [tickMinute]
  split_ifs <;> exact ⟨rfl, rfl, rfl, rfl⟩

theorem Marked.tick (h : Marked c os) (now : BitVec 32) :
    Marked (c.tickMinute now).1 (os ++ [{ minute := (c.tickMinute now).2 }]) := by
  have hsince : ∀ mark total : BitVec 32, mark + ([total - mark] : List (BitVec 32)).sum = total := by
    intro mark total
    rw [List.sum_singleton]
    grind
  rw [Counters.tickMinute]
  by_cases hearly : now - c.last_minute_mark < 60000
  · rw [if_pos hearly]
    exact h.frame rfl rfl rfl rfl
  · rw [if_neg hearly]
    refine ⟨?_, ?_, ?_⟩
    · rw [minutesOf_snoc, List.map_append, List.sum_append, h.captures]
      exact hsince _ _
    · rw [minutesOf_snoc, List.map_append, List.sum_append, h.accepted]
      exact hsince _ _
    · rw [minutesOf_snoc, List.map_append, List.sum_append, h.lost]
      exact hsince _ _

theorem takeBytes_received (r : Radio) (d : Cc1101.Drain) (n : ℕ) :
    (r.takeBytes d n).2.received = none := by
  rw [Radio.takeBytes]
  dsimp only
  split_ifs <;> rfl

theorem task_received (r : Radio) (e : TaskEvent) : (e.step r).2.received = none := by
  cases e with
  | arrive b => rfl
  | drain now =>
      rw [TaskEvent.step, Radio.step]
      cases r.drain <;> rfl
  | iterate rssi freqest =>
      rw [TaskEvent.step, Radio.step]
      cases r.drain with
      | none => rfl
      | some d =>
          dsimp only
          rw [Radio.iterate]
          generalize r.sampleSignal d rssi freqest = r'
          dsimp only
          split_ifs
          · rfl
          · exact takeBytes_received r' d _
          · rfl
          · exact takeBytes_received r' d _
  | endEarly =>
      rw [TaskEvent.step, Radio.step, Radio.endCaptureEarly]
      dsimp only
      split_ifs <;> rfl
  | restart => rfl
  | health => rfl

theorem task_queued (r : Radio) (e : TaskEvent) : Cc1101.Queued r (e.step r).1 (e.step r).2 := by
  cases e with
  | arrive b => exact Cc1101.step_queued r (.arrive b)
  | drain now => exact Cc1101.step_queued r (.drain now)
  | iterate rssi freqest => exact Cc1101.step_queued r (.iterate rssi freqest)
  | endEarly => exact Cc1101.step_queued r .endEarly
  | restart => exact Cc1101.step_queued r .restart
  | health =>
      rw [TaskEvent.step, healthCheck]
      split_ifs <;> exact Cc1101.queued_same none rfl rfl

theorem length_took (l : List (CC1101Capture × Bool)) :
    (l.filterMap Cc1101.took).length + l.countP (fun e => !e.2) = l.length := by
  induction l with
  | nil => rfl
  | cons e l ih =>
      rw [List.filterMap_cons, List.countP_cons, List.length_cons, ← ih, Cc1101.took]
      cases e.2
      · exact (Nat.add_assoc _ _ 1).symm
      · simp only [if_true, Bool.not_true, Bool.false_eq_true, if_false, List.length_cons]
        omega

/-- The task passes its captures to the queue or counts them. -/
theorem finished_balance (r : Radio) (e : TaskEvent) :
    (e.step r).1.queue.length + (e.step r).1.queue_drops =
      r.queue.length + r.queue_drops + (e.step r).2.finished.toList.length := by
  obtain ⟨hqueue, hdrops⟩ := task_queued r e
  have htook := length_took (e.step r).2.finished.toList
  rw [task_received, Option.toList_none, List.nil_append] at hqueue
  rw [hqueue, hdrops, List.length_append]
  omega

namespace Books
variable {s s' : Listener}

theorem fold (h : Books settings s os) (hradio : s'.radio = s.radio) {n : BitVec 32}
    (hcounters : s'.counters = s.counters.countLost n)
    (hseen : s'.overflows_seen + s'.queue_drops_seen + s'.stalls_seen =
      s.overflows_seen + s.queue_drops_seen + s.stalls_seen + n) :
    Books settings s' (os ++ [({} : Reported)]) := by
  rw [Counters.countLost] at hcounters
  refine ⟨?_, ?_, ?_⟩
  · rw [hcounters, hradio]
    exact h.counted.frame rfl rfl rfl rfl rfl rfl
  · rw [hcounters]
    exact h.marked.frame rfl rfl rfl rfl
  · rw [hcounters, hseen, ← h.lost]

theorem receive (h : Books settings s os) (clock : Clock) :
    Books settings (s.receive settings clock).1 (os ++ [(s.receive settings clock).2]) := by
  rw [Listener.receive]
  cases hqueue : s.radio.queue with
  | nil => exact ⟨h.counted.frame rfl rfl rfl rfl rfl rfl, h.marked.frame rfl rfl rfl rfl, h.lost⟩
  | cons c queue =>
      have hradio : (s.radio.step .receive).1 = { s.radio with queue } := by
        rw [Radio.step, hqueue]
      have hdone := processCapture_processed settings s.counters (c.data.take c.len) c.rssi
        c.first_bit_us (some (c.freqest * freqestKhz)) clock
      simp only [hradio]
      generalize processCapture settings s.counters (c.data.take c.len) c.rssi c.first_bit_us
        (some (c.freqest * freqestKhz)) clock = answer at hdone ⊢
      refine ⟨?_, ?_, hdone.lost.trans h.lost⟩
      · exact h.counted.receive hdone hqueue
      · exact h.marked.frame hdone.captures_at_mark hdone.accepted_at_mark hdone.lost_at_mark rfl

theorem step (h : Books settings s os) (e : BoardEvent) :
    Books settings (s.step settings e).1 (os ++ [(s.step settings e).2]) := by
  have hstay : Books settings s (os ++ [({} : Reported)]) :=
    ⟨h.counted.frame rfl rfl rfl rfl rfl rfl, h.marked.frame rfl rfl rfl rfl, h.lost⟩
  cases e with
  | task e =>
      exact ⟨h.counted.frame rfl rfl rfl rfl rfl (finished_balance s.radio e),
        h.marked.frame rfl rfl rfl rfl, h.lost⟩
  | tick now =>
      obtain ⟨hcaptures, haccepted, hseq, hlost⟩ := s.counters.tickMinute_keeps now
      exact ⟨h.counted.frame hcaptures haccepted hseq rfl rfl rfl, h.marked.tick now,
        hlost.trans h.lost⟩
  | foldOverflows =>
      rw [Listener.step, Listener.foldOverflows]
      dsimp only
      split_ifs
      · exact hstay
      · exact h.fold rfl rfl (by grind)
  | foldDrops =>
      rw [Listener.step, Listener.foldDrops]
      dsimp only
      split_ifs
      · exact hstay
      · exact h.fold rfl rfl (by grind)
  | foldStalls =>
      rw [Listener.step, Listener.foldStalls]
      dsimp only
      split_ifs
      · exact hstay
      · exact h.fold rfl rfl (by grind)
  | receive clock => exact h.receive clock

theorem boot (settings : Settings) (capture_bytes : ℕ) (started : BitVec 32) :
    Books settings (Listener.boot capture_bytes started) [] := by
  refine ⟨⟨rfl, rfl, rfl, ?_, rfl⟩, ⟨rfl, rfl, rfl⟩, rfl⟩
  cases settings.mqtt <;> rfl

theorem run (settings : Settings) (capture_bytes : ℕ) (started : BitVec 32)
    (es : List BoardEvent) :
    Books settings (Machine.run (Listener.step settings) (Listener.boot capture_bytes started) es).1
      (Machine.run (Listener.step settings) (Listener.boot capture_bytes started) es).2 :=
  Machine.history (P := Books settings) (fun _ _ e h => step h e)
    (boot settings capture_bytes started) es

end Books

/-- Behind the three folds the loop has seen all that the task has counted. -/
theorem folds_seen (settings : Settings) (s : Listener) :
    let s' := (Machine.run (Listener.step settings) s [.foldOverflows, .foldDrops, .foldStalls]).1
    s'.overflows_seen = BitVec.ofNat 32 s.radio.overflows ∧
      s'.queue_drops_seen = BitVec.ofNat 32 s.radio.queue_drops ∧
      s'.stalls_seen = BitVec.ofNat 32 s.radio.stalls := by
  have hoverflows : s.foldOverflows.radio = s.radio ∧
      s.foldOverflows.overflows_seen = BitVec.ofNat 32 s.radio.overflows := by
    rw [Listener.foldOverflows]
    split_ifs with hseen
    · exact ⟨rfl, hseen.symm⟩
    · exact ⟨rfl, rfl⟩
  have hdrops : ∀ s : Listener, s.foldDrops.radio = s.radio ∧
      s.foldDrops.overflows_seen = s.overflows_seen ∧
      s.foldDrops.queue_drops_seen = BitVec.ofNat 32 s.radio.queue_drops := by
    intro s
    rw [Listener.foldDrops]
    split_ifs with hseen
    · exact ⟨rfl, rfl, hseen.symm⟩
    · exact ⟨rfl, rfl, rfl⟩
  have hstalls : ∀ s : Listener, s.foldStalls.overflows_seen = s.overflows_seen ∧
      s.foldStalls.queue_drops_seen = s.queue_drops_seen ∧
      s.foldStalls.stalls_seen = BitVec.ofNat 32 s.radio.stalls := by
    intro s
    rw [Listener.foldStalls]
    split_ifs with hseen
    · exact ⟨rfl, rfl, hseen.symm⟩
    · exact ⟨rfl, rfl, rfl⟩
  obtain ⟨hradio, hseen⟩ := hoverflows
  obtain ⟨hradio', hseen', hdropped⟩ := hdrops s.foldOverflows
  obtain ⟨hlast, hlastDropped, hstalled⟩ := hstalls s.foldOverflows.foldDrops
  exact ⟨hlast.trans (hseen'.trans hseen), hlastDropped.trans (hdropped.trans (hradio ▸ rfl)),
    hstalled.trans (by rw [hradio', hradio])⟩

/-- However the task and the loop interleave: each capture the task finished is received, waits
in the queue or is counted as dropped; the counters are the numbers of captures received and
accepted, and the published ones carry the sequence numbers 1, 2, 3 and so on; whenever the loop
has folded the task's counts in, what it calls lost is all the task has counted; and whenever a
minute is reported, the minutes so far add up to the counters. -/
theorem board_counts (settings : Settings) (capture_bytes : ℕ) (started : BitVec 32)
    (es : List BoardEvent) :
    let r := Machine.run (Listener.step settings) (Listener.boot capture_bytes started) es
    finishedCount r.2 = (receivedOf r.2).length + r.1.radio.queue.length + r.1.radio.queue_drops ∧
      r.1.counters.captures = BitVec.ofNat 32 (receivedOf r.2).length ∧
      r.1.counters.accepted = BitVec.ofNat 32 (passedCount settings r.2) ∧
      (publishedOf r.2).map Publication.seq =
        (if settings.mqtt then
          (List.range (passedCount settings r.2)).map (fun k => BitVec.ofNat 32 (k + 1))
        else []) ∧
      (Machine.run (Listener.step settings) r.1
          [.foldOverflows, .foldDrops, .foldStalls]).1.counters.lost =
        BitVec.ofNat 32 (r.1.radio.overflows + r.1.radio.queue_drops + r.1.radio.stalls) ∧
      ∀ now minute, (r.1.step settings (.tick now)).2.minute = some minute →
        ((minutesOf r.2 ++ [minute]).map Minute.captures).sum = r.1.counters.captures ∧
        ((minutesOf r.2 ++ [minute]).map Minute.accepted).sum = r.1.counters.accepted ∧
        ((minutesOf r.2 ++ [minute]).map Minute.lost).sum = r.1.counters.lost := by
  intro r
  have h : Books settings r.1 r.2 := Books.run settings capture_bytes started es
  refine ⟨h.counted.finished, h.counted.captures, h.counted.accepted, h.counted.published, ?_, ?_⟩
  · have hfolded := Machine.history (P := Books settings) (fun _ _ e h => Books.step h e) h
      [.foldOverflows, .foldDrops, .foldStalls]
    obtain ⟨hoverflows, hdrops, hstalls⟩ := folds_seen settings r.1
    rw [hfolded.lost, hoverflows, hdrops, hstalls, BitVec.ofNat_add, BitVec.ofNat_add]
  · intro now minute hminute
    have hmarked := h.marked.tick now
    have hmark : (r.1.counters.tickMinute now).2 = some minute := hminute
    have hdue : ¬now - r.1.counters.last_minute_mark < 60000 := by
      intro hearly
      rw [Counters.tickMinute, if_pos hearly] at hmark
      cases hmark
    have hmarks : ((r.1.counters.tickMinute now).1.captures_at_mark = r.1.counters.captures) ∧
        (r.1.counters.tickMinute now).1.accepted_at_mark = r.1.counters.accepted ∧
        (r.1.counters.tickMinute now).1.lost_at_mark = r.1.counters.lost := by
      rw [Counters.tickMinute, if_neg hdue]
      exact ⟨rfl, rfl, rfl⟩
    have hsnoc : minutesOf (r.2 ++ [{ minute := (r.1.counters.tickMinute now).2 }]) =
        minutesOf r.2 ++ [minute] := by
      rw [minutesOf_snoc, hmark]
      rfl
    obtain ⟨hcaptures, haccepted, hlost⟩ := hmarked
    rw [hsnoc] at hcaptures haccepted hlost
    exact ⟨hcaptures.trans hmarks.1, haccepted.trans hmarks.2.1, hlost.trans hmarks.2.2⟩

end InsteonRf.Board
