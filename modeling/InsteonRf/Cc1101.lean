import InsteonRf.Packet
import InsteonRf.Lib.Machine

/-!
# The CC1101's FIFO

The radio appends bytes to its FIFO whenever they arrive. A task drains it: it reads how many
bytes wait, and takes as many as complete a capture, or all but the last of them, since the
chip may lose a byte that is written while the FIFO is read empty. The steps of the chip, of
the task and of the loop that receives the captures interleave in any way.
-/
namespace InsteonRf.Cc1101

def queueDepth : ℕ := 8

def stallUs : BitVec 32 := 20000#32

def fifoSize : ℕ := 64

def insteonBitrate : ℕ := 9124

def dataSize : ℕ := 255

def airUs (nbytes : ℕ) : BitVec 32 := BitVec.ofNat 32 (nbytes * 8 * 1000000 / insteonBitrate)

def rssiDbm (raw : Byte) : ℚ := raw.toInt / 2 - 74

/-- One capture handed from the radio task to the loop. -/
structure CC1101Capture where
  first_bit_us : BitVec 32 := 0
  rssi : ℚ := 0
  freqest : ℤ := 0
  len : ℕ := 0
  data : List Byte := List.replicate dataSize 0

/-- The local variables of a `drain_` under way. -/
structure Drain where
  now : BitVec 32
  avail : ℕ

/-- The chip and the task. Eight-bit variables are numbers, reduced where they are computed. -/
structure Radio where
  capture_bytes : ℕ
  fifo : List Byte := []
  overflowed : Bool := false
  got : ℕ := 0
  cur : CC1101Capture := {}
  last_seen : ℕ := 0
  last_progress_us : BitVec 32 := 0
  queue : List CC1101Capture := []
  queue_drops : ℕ := 0
  overflows : ℕ := 0
  stalls : ℕ := 0
  quiet_ends : ℕ := 0
  drain : Option Drain := none

/-- A read of the FIFO: the bytes asked for, those counted as available, those in hand, and
those that wait in the FIFO. -/
structure FifoRead where
  n : ℕ
  avail : ℕ
  got : ℕ
  waiting : ℕ

/-- What a step shows: a read, a finished capture and whether the queue took it, a capture the
loop received. -/
structure Shown where
  read : Option FifoRead := none
  finished : Option (CC1101Capture × Bool) := none
  received : Option CC1101Capture := none

inductive Event where
  | arrive (b : Byte)
  | drain (now : BitVec 32)
  | iterate (rssi freqest : Byte)
  | receive
  | endEarly
  | restart

namespace Radio

/-- A byte comes in; a full FIFO overflows, and the chip receives no more. -/
def arrive (r : Radio) (b : Byte) : Radio :=
  if r.overflowed then r
  else if fifoSize ≤ r.fifo.length then { r with overflowed := true }
  else { r with fifo := r.fifo ++ [b] }

def restartRx (r : Radio) : Radio :=
  { r with fifo := [], overflowed := false, got := 0, last_seen := 0, drain := none }

/-- The low seven bits of the RXBYTES register. -/
def rxbytes (r : Radio) : ℕ := r.fifo.length % 128

/-- Nothing has come in for too long, with part of a capture in hand. -/
def stalled (r : Radio) (now : BitVec 32) : Bool :=
  decide (r.got + r.rxbytes = r.last_seen) && decide (0 < r.got + r.rxbytes) &&
    decide (stallUs < now - r.last_progress_us)

def beginDrain (r : Radio) (now : BitVec 32) : Radio :=
  if r.overflowed then restartRx { r with overflows := r.overflows + 1 }
  else if r.stalled now then restartRx { r with stalls := r.stalls + 1 }
  else if r.got + r.rxbytes ≠ r.last_seen then
    { r with last_seen := r.got + r.rxbytes, last_progress_us := now, drain := some ⟨now, r.rxbytes⟩ }
  else { r with drain := some ⟨now, r.rxbytes⟩ }

/-- A burst read behind the bytes in hand. A FIFO that is empty reads as zeros. -/
def readFifo (r : Radio) (n : ℕ) : Radio :=
  { r with
    fifo := r.fifo.drop n
    cur := { r.cur with
      data := r.cur.data.take r.got ++ ((r.fifo ++ List.replicate n 0).take n ++
        r.cur.data.drop (r.got + n)) } }

def sendCapture (r : Radio) (len : ℕ) : Radio × Bool :=
  if r.queue.length < queueDepth then
    ({ r with cur := { r.cur with len }, queue := r.queue ++ [{ r.cur with len }] }, true)
  else ({ r with cur := { r.cur with len }, queue_drops := r.queue_drops + 1 }, false)

def advance (r : Radio) (d : Drain) (n : ℕ) : Radio :=
  { r.readFifo n with
    got := (r.got + n) % 256
    drain := some { d with avail := (d.avail + 256 - n) % 256 } }

def takeBytes (r : Radio) (d : Drain) (n : ℕ) : Radio × Shown :=
  let read : FifoRead := ⟨n, d.avail, r.got, r.fifo.length⟩
  let r := r.advance d n
  if r.got = r.capture_bytes then
    let sent := r.sendCapture r.capture_bytes
    ({ sent.1 with got := 0 }, { read := some read, finished := some (sent.1.cur, sent.2) })
  else (r, { read := some read })

/-- The signal is sampled with the first byte of a capture. -/
def sampleSignal (r : Radio) (d : Drain) (rssi freqest : Byte) : Radio :=
  if r.got = 0 then
    { r with cur := { r.cur with
        first_bit_us := d.now - airUs d.avail, rssi := rssiDbm rssi, freqest := freqest.toInt } }
  else r

def endDrain (r : Radio) (d : Drain) : Radio :=
  { r with last_seen := r.got + d.avail, drain := none }

def iterate (r : Radio) (d : Drain) (rssi freqest : Byte) : Radio × Shown :=
  if d.avail = 0 then (r.endDrain d, {})
  else
    let r := r.sampleSignal d rssi freqest
    let remaining := (r.capture_bytes + 256 - r.got) % 256
    if remaining ≤ d.avail then r.takeBytes d remaining
    else if d.avail - 1 = 0 then (r.endDrain d, {})
    else r.takeBytes d (d.avail - 1)

def quietEnd (r : Radio) : Radio := restartRx { r with quiet_ends := r.quiet_ends + 1 }

/-- What waits of the capture in hand. -/
def tailCount (r : Radio) : ℕ := min r.rxbytes ((r.capture_bytes + 256 - r.got) % 256)

def takeTail (r : Radio) : Radio :=
  { r.readFifo r.tailCount with got := (r.got + r.tailCount) % 256 }

/-- `end_capture_early_`: with the receiver stopped, the rest is read and the capture sent
unless it is shorter than an exchange. -/
def endCaptureEarly (r : Radio) : Radio × Shown :=
  if r.overflowed then (r.quietEnd, {})
  else
    let read : FifoRead := ⟨r.tailCount, r.rxbytes, r.got, r.fifo.length⟩
    let r := r.takeTail
    if 32 ≤ r.got then
      let sent := r.sendCapture r.got
      (sent.1.quietEnd, { read := some read, finished := some (sent.1.cur, sent.2) })
    else (r.quietEnd, { read := some read })

/-- One step of the chip, the task or the loop. The task runs one `drain_` at a time: what
cannot happen now changes nothing. -/
def step (r : Radio) : Event → Radio × Shown
  | .arrive b => (r.arrive b, {})
  | .drain now =>
      match r.drain with
      | none => (r.beginDrain now, {})
      | some _ => (r, {})
  | .iterate rssi freqest =>
      match r.drain with
      | none => (r, {})
      | some d => r.iterate d rssi freqest
  | .receive =>
      match r.queue with
      | [] => (r, {})
      | c :: queue => ({ r with queue }, { received := some c })
  | .endEarly => r.endCaptureEarly
  | .restart => (r.restartRx, {})

end Radio

def start (capture_bytes : ℕ) : Radio := { capture_bytes }

/-- A run without overflow, stall, early end or restart. -/
def Undisturbed (r : Radio) : Event → Prop
  | .arrive _ => r.fifo.length < fifoSize
  | .drain now => r.stalled now = false
  | .endEarly => False
  | .restart => False
  | _ => True

/-- What holds between two steps: a capture is under way but not complete, and the bytes a
drain counts on do wait in the FIFO. -/
structure Framed (r : Radio) : Prop where
  size : 32 ≤ r.capture_bytes ∧ r.capture_bytes ≤ dataSize
  got : r.got < r.capture_bytes
  data : r.cur.data.length = dataSize
  fifo : r.fifo.length ≤ fifoSize
  overflowed : r.overflowed = false
  avail : ∀ d ∈ r.drain, d.avail ≤ r.fifo.length

/-- The bytes that came in and are in no capture yet. -/
def contents (r : Radio) : List Byte := r.cur.data.take r.got ++ r.fifo

def piece (s : Shown) : List Byte :=
  match s.finished with
  | some (c, _) => c.data.take c.len
  | none => []

def arrival : Event → Option Byte
  | .arrive b => some b
  | _ => none

/-- A read asks for at least one byte and for no more than there are, stays inside the buffer,
and leaves a byte in the FIFO unless it completes the capture. -/
structure SafeRead (capture_bytes : ℕ) (q : FifoRead) : Prop where
  pos : 1 ≤ q.n
  available : q.n ≤ q.avail
  waiting : q.avail ≤ q.waiting
  inside : q.got + q.n ≤ dataSize
  leaves : q.got + q.n < capture_bytes → q.n < q.waiting

/-- What one step does: no byte is lost, doubled or moved, a finished capture has its full
length, and reads are safe. -/
structure StepOk (r r' : Radio) (s : Shown) (b : Option Byte) : Prop where
  framed : Framed r'
  capture_bytes : r'.capture_bytes = r.capture_bytes
  contents : piece s ++ contents r' = contents r ++ b.toList
  finished : ∀ e ∈ s.finished, (e.1.data.take e.1.len).length = r.capture_bytes
  read : ∀ q ∈ s.read, SafeRead r.capture_bytes q

theorem stepOk_of_same {r r₀ r' : Radio} {s : Shown} {b : Option Byte} (h : StepOk r r' s b)
    (hcontents : contents r = contents r₀) (hsize : r.capture_bytes = r₀.capture_bytes) :
    StepOk r₀ r' s b :=
  ⟨h.framed, h.capture_bytes.trans hsize, hcontents ▸ h.contents, hsize ▸ h.finished,
    hsize ▸ h.read⟩

namespace Framed
variable {r : Radio}

theorem rxbytes_eq (h : Framed r) : r.rxbytes = r.fifo.length := by
  have hfifo := h.fifo
  rw [fifoSize] at hfifo
  exact Nat.mod_eq_of_lt (by omega)

theorem quiet {r' : Radio} {b : Option Byte} (hr' : Framed r')
    (hsize : r'.capture_bytes = r.capture_bytes) (hcontents : contents r' = contents r ++ b.toList) :
    StepOk r r' {} b :=
  ⟨hr', hsize, hcontents, (fun _ he => by cases he), (fun _ hq => by cases hq)⟩

theorem arrive_ok (h : Framed r) (hspace : r.fifo.length < fifoSize) (b : Byte) :
    StepOk r (r.arrive b) {} (some b) := by
  have harrive : r.arrive b = { r with fifo := r.fifo ++ [b] } := by
    rw [Radio.arrive, h.overflowed, if_neg Bool.false_ne_true, if_neg (Nat.not_le.mpr hspace)]
  rw [harrive]
  refine quiet ⟨h.size, h.got, h.data, ?_, h.overflowed, ?_⟩ rfl ?_
  · simp only [List.length_append, List.length_singleton]
    omega
  · intro d hd
    have havail := h.avail d hd
    simp only [List.length_append, List.length_singleton]
    omega
  · exact (List.append_assoc _ _ _).symm

theorem beginDrain_ok (h : Framed r) {now : BitVec 32} (hmoving : r.stalled now = false) :
    StepOk r (r.beginDrain now) {} none := by
  have hcounts : ∀ d ∈ some (Drain.mk now r.rxbytes), d.avail ≤ r.fifo.length := by
    intro d hd
    cases hd
    exact h.rxbytes_eq.le
  rw [Radio.beginDrain, h.overflowed, hmoving, if_neg Bool.false_ne_true,
    if_neg Bool.false_ne_true]
  split_ifs
  · exact quiet ⟨h.size, h.got, h.data, h.fifo, rfl, hcounts⟩ rfl
      (List.append_nil _).symm
  · exact quiet ⟨h.size, h.got, h.data, h.fifo, rfl, hcounts⟩ rfl
      (List.append_nil _).symm

theorem endDrain_ok (h : Framed r) (d : Drain) : StepOk r (r.endDrain d) {} none :=
  quiet ⟨h.size, h.got, h.data, h.fifo, h.overflowed, fun _ hd => by cases hd⟩ rfl
    (List.append_nil _).symm

/-- A read moves bytes from the FIFO behind those in hand. -/
theorem advance_ok (h : Framed r) {d : Drain} (hdrain : r.drain = some d) {n : ℕ}
    (hn : n ≤ d.avail) (hroom : r.got + n ≤ r.capture_bytes) :
    (r.advance d n).got = r.got + n ∧ (r.advance d n).cur.data.length = dataSize ∧
      (r.advance d n).fifo.length ≤ fifoSize ∧ contents (r.advance d n) = contents r ∧
      ∀ e ∈ (r.advance d n).drain, e.avail ≤ (r.advance d n).fifo.length := by
  have havail := h.avail d hdrain
  have hsize := h.size.2
  have hfifo := h.fifo
  have hlen := h.data
  rw [dataSize] at hsize hlen
  rw [fifoSize] at hfifo
  have hgot : (r.advance d n).got = r.got + n := Nat.mod_eq_of_lt (by omega)
  have hrest : (r.advance d n).fifo = r.fifo.drop n := rfl
  have hdata : (r.advance d n).cur.data = r.cur.data.take r.got ++ (r.fifo.take n ++
      r.cur.data.drop (r.got + n)) := by
    rw [Radio.advance, Radio.readFifo]
    simp only [List.take_append_of_le_length (show n ≤ r.fifo.length by omega)]
  refine ⟨hgot, ?_, ?_, ?_, ?_⟩
  · rw [hdata, dataSize]
    simp only [List.length_append, List.length_take, List.length_drop, hlen]
    omega
  · rw [hrest, List.length_drop, fifoSize]
    omega
  · have htaken : (r.cur.data.take r.got ++ r.fifo.take n).length = r.got + n := by
      simp only [List.length_append, List.length_take, hlen]
      omega
    rw [contents, hgot, hdata, hrest, ← List.append_assoc, List.take_left' htaken,
      List.append_assoc, List.take_append_drop, contents]
  · intro e he
    cases he
    rw [hrest, List.length_drop]
    simp only
    omega

theorem sendCapture_eq (r : Radio) (len : ℕ) :
    ∃ queue queue_drops queued, r.sendCapture len =
      ({ r with cur := { r.cur with len }, queue, queue_drops }, queued) := by
  rw [Radio.sendCapture]
  split_ifs
  · exact ⟨_, _, _, rfl⟩
  · exact ⟨_, _, _, rfl⟩

theorem takeBytes_ok (h : Framed r) {d : Drain} (hdrain : r.drain = some d) {n : ℕ} (hpos : 1 ≤ n)
    (hn : n ≤ d.avail) (hroom : r.got + n ≤ r.capture_bytes)
    (hleaves : r.got + n < r.capture_bytes → n < d.avail) :
    StepOk r (r.takeBytes d n).1 (r.takeBytes d n).2 none := by
  have havail := h.avail d hdrain
  obtain ⟨hgot, hlen, hfifo, hcontents, hnext⟩ := h.advance_ok hdrain hn hroom
  have hsafe : SafeRead r.capture_bytes ⟨n, d.avail, r.got, r.fifo.length⟩ :=
    ⟨hpos, hn, havail, hroom.trans h.size.2, fun hlt => (hleaves hlt).trans_le havail⟩
  have hsize : (r.advance d n).capture_bytes = r.capture_bytes := rfl
  have hflag : (r.advance d n).overflowed = false := h.overflowed
  rw [Radio.takeBytes]
  generalize r.advance d n = r' at hgot hlen hfifo hcontents hnext hsize hflag ⊢
  by_cases hfull : r'.got = r'.capture_bytes
  · obtain ⟨queue, queue_drops, queued, hsend⟩ := sendCapture_eq r' r'.capture_bytes
    simp only [if_pos hfull, hsend]
    constructor
    · refine ⟨hsize ▸ h.size, ?_, hlen, hfifo, hflag, hnext⟩
      have hmin := h.size.1
      simp only [hsize]
      omega
    · exact hsize
    · have hwhole : contents r' = r'.cur.data.take r'.capture_bytes ++ r'.fifo := by
        rw [contents, hfull]
      rw [Option.toList_none, List.append_nil, ← hcontents, hwhole]
      rfl
    · intro e he
      cases he
      simp only [List.length_take, hlen, hsize]
      exact Nat.min_eq_left h.size.2
    · intro q hq
      cases hq
      exact hsafe
  · simp only [if_neg hfull]
    constructor
    · refine ⟨hsize ▸ h.size, ?_, hlen, hfifo, hflag, hnext⟩
      omega
    · exact hsize
    · rw [Option.toList_none, List.append_nil, ← hcontents]
      rfl
    · intro e he
      cases he
    · intro q hq
      cases hq
      exact hsafe

theorem sampleSignal_eq (r : Radio) (d : Drain) (rssi freqest : Byte) :
    ∃ cur, r.sampleSignal d rssi freqest = { r with cur } ∧ cur.data = r.cur.data := by
  rw [Radio.sampleSignal]
  generalize d.now - airUs d.avail = first_bit_us
  split_ifs
  · exact ⟨_, rfl, rfl⟩
  · exact ⟨r.cur, rfl, rfl⟩

theorem sampleSignal_ok (h : Framed r) (d : Drain) (rssi freqest : Byte) :
    Framed (r.sampleSignal d rssi freqest) ∧
      contents (r.sampleSignal d rssi freqest) = contents r ∧
      (r.sampleSignal d rssi freqest).capture_bytes = r.capture_bytes ∧
      (r.sampleSignal d rssi freqest).drain = r.drain := by
  obtain ⟨cur, hsample, hdata⟩ := sampleSignal_eq r d rssi freqest
  rw [hsample]
  refine ⟨⟨h.size, h.got, hdata ▸ h.data, h.fifo, h.overflowed, h.avail⟩, ?_, rfl, rfl⟩
  rw [contents, contents, hdata]

theorem iterate_ok (h : Framed r) {d : Drain} (hdrain : r.drain = some d) (rssi freqest : Byte) :
    StepOk r (r.iterate d rssi freqest).1 (r.iterate d rssi freqest).2 none := by
  rw [Radio.iterate]
  by_cases hempty : d.avail = 0
  · rw [if_pos hempty]
    exact h.endDrain_ok d
  · rw [if_neg hempty]
    obtain ⟨hframed, hcontents, hsize, hsame⟩ := h.sampleSignal_ok d rssi freqest
    rw [← hsame] at hdrain
    generalize r.sampleSignal d rssi freqest = r' at hframed hcontents hsize hdrain ⊢
    have hlt := hframed.got
    have hmax := hframed.size.2
    rw [dataSize] at hmax
    have hremaining : (r'.capture_bytes + 256 - r'.got) % 256 = r'.capture_bytes - r'.got := by
      omega
    simp only [hremaining]
    -- the rest of the capture is in, or all but one byte is taken, or one byte is left alone
    split_ifs with hrest
    · exact stepOk_of_same (hframed.takeBytes_ok hdrain (by omega) hrest (by omega) (by omega))
        hcontents hsize
    · exact stepOk_of_same (hframed.endDrain_ok d) hcontents hsize
    · exact stepOk_of_same
        (hframed.takeBytes_ok hdrain (by omega) (by omega) (by omega) (by omega)) hcontents hsize

theorem step_ok (h : Framed r) {e : Event} (he : Undisturbed r e) :
    StepOk r (r.step e).1 (r.step e).2 (arrival e) := by
  have hstay : StepOk r r {} none := quiet h rfl (List.append_nil _).symm
  cases e with
  | arrive b => exact h.arrive_ok he b
  | drain now =>
      rw [Radio.step]
      cases r.drain with
      | none => exact h.beginDrain_ok he
      | some d => exact hstay
  | iterate rssi freqest =>
      rw [Radio.step]
      cases hdrain : r.drain with
      | none => exact hstay
      | some d => exact h.iterate_ok hdrain rssi freqest
  | receive =>
      rw [Radio.step]
      cases r.queue with
      | nil => exact hstay
      | cons c queue =>
          exact ⟨⟨h.size, h.got, h.data, h.fifo, h.overflowed, h.avail⟩, rfl,
            (List.append_nil _).symm, (fun _ hf => by cases hf), (fun _ hq => by cases hq)⟩
  | endEarly => exact absurd he not_false
  | restart => exact absurd he not_false

end Framed

def arrivals (es : List Event) : List Byte := es.filterMap arrival

def captures (shown : List Shown) : List (CC1101Capture × Bool) := shown.filterMap Shown.finished

def pieces (shown : List Shown) : List (List Byte) :=
  (captures shown).map (fun e => e.1.data.take e.1.len)

theorem flatten_pieces (shown : List Shown) : (pieces shown).flatten = shown.flatMap piece := by
  induction shown with
  | nil => rfl
  | cons s shown ih =>
      rw [List.flatMap_cons, ← ih, pieces, pieces, captures, captures, List.filterMap_cons, piece]
      cases s.finished with
      | none => rfl
      | some e => rfl

/-- Over a run the captures are the stream of bytes, cut where they are full. -/
theorem run_ok {r : Radio} (h : Framed r) {es : List Event}
    (hes : Machine.Admitted Radio.step Undisturbed r es) :
    Framed (Machine.run Radio.step r es).1 ∧
      (Machine.run Radio.step r es).1.capture_bytes = r.capture_bytes ∧
      (Machine.run Radio.step r es).2.flatMap piece ++ contents (Machine.run Radio.step r es).1 =
        contents r ++ arrivals es ∧
      ∀ s ∈ (Machine.run Radio.step r es).2,
        (∀ e ∈ s.finished, (e.1.data.take e.1.len).length = r.capture_bytes) ∧
        ∀ q ∈ s.read, SafeRead r.capture_bytes q := by
  induction es generalizing r with
  | nil => exact ⟨h, rfl, (List.append_nil _).symm, fun _ hs => absurd hs List.not_mem_nil⟩
  | cons e es ih =>
      have hstep := h.step_ok hes.1
      obtain ⟨hframed, hsize, hcontents, hshown⟩ := ih hstep.framed hes.2
      rw [hstep.capture_bytes] at hsize hshown
      have harrivals : arrivals (e :: es) = (arrival e).toList ++ arrivals es := by
        rw [arrivals, List.filterMap_cons]
        cases arrival e <;> rfl
      refine ⟨hframed, hsize, ?_, ?_⟩
      · rw [Machine.run_cons, List.flatMap_cons, List.append_assoc, hcontents,
          ← List.append_assoc, hstep.contents, harrivals, List.append_assoc]
      · intro s hs
        rcases List.mem_cons.mp hs with rfl | hs
        · exact ⟨hstep.finished, hstep.read⟩
        · exact hshown s hs

def took (e : CC1101Capture × Bool) : Option CC1101Capture := if e.2 then some e.1 else none

/-- The queue hands over what it took, in order, and the rest is counted. -/
structure Queued (r r' : Radio) (s : Shown) : Prop where
  queue : s.received.toList ++ r'.queue = r.queue ++ s.finished.toList.filterMap took
  drops : r'.queue_drops = r.queue_drops + s.finished.toList.countP (fun e => !e.2)

theorem queued_sendCapture (r r₀ : Radio) (len : ℕ) (read : Option FifoRead)
    (hqueue : r.queue = r₀.queue) (hdrops : r.queue_drops = r₀.queue_drops) :
    Queued r₀ (r.sendCapture len).1
      { read, finished := some ((r.sendCapture len).1.cur, (r.sendCapture len).2) } := by
  rw [Radio.sendCapture]
  split_ifs
  · exact ⟨by rw [← hqueue]; rfl, hdrops⟩
  · exact ⟨hqueue.trans (List.append_nil _).symm, congrArg (· + 1) hdrops⟩

theorem queued_same {r r' : Radio} (read : Option FifoRead) (hqueue : r'.queue = r.queue)
    (hdrops : r'.queue_drops = r.queue_drops) : Queued r r' { read } :=
  ⟨hqueue.trans (List.append_nil _).symm, hdrops⟩

theorem queued_takeBytes (r r₀ : Radio) (d : Drain) (n : ℕ) (hqueue : r.queue = r₀.queue)
    (hdrops : r.queue_drops = r₀.queue_drops) :
    Queued r₀ (r.takeBytes d n).1 (r.takeBytes d n).2 := by
  rw [Radio.takeBytes]
  by_cases hfull : (r.advance d n).got = (r.advance d n).capture_bytes
  · simp only [if_pos hfull]
    have hsent := queued_sendCapture (r.advance d n) r₀ (r.advance d n).capture_bytes
      (some ⟨n, d.avail, r.got, r.fifo.length⟩) hqueue hdrops
    exact ⟨hsent.queue, hsent.drops⟩
  · simp only [if_neg hfull]
    exact queued_same _ hqueue hdrops

theorem queued_iterate (r : Radio) (d : Drain) (rssi freqest : Byte) :
    Queued r (r.iterate d rssi freqest).1 (r.iterate d rssi freqest).2 := by
  rw [Radio.iterate]
  by_cases hempty : d.avail = 0
  · rw [if_pos hempty]
    exact queued_same none rfl rfl
  · rw [if_neg hempty]
    obtain ⟨cur, hsample, -⟩ := Framed.sampleSignal_eq r d rssi freqest
    have hqueue : (r.sampleSignal d rssi freqest).queue = r.queue := by rw [hsample]
    have hdrops : (r.sampleSignal d rssi freqest).queue_drops = r.queue_drops := by rw [hsample]
    generalize r.sampleSignal d rssi freqest = r' at hqueue hdrops ⊢
    simp only
    split_ifs
    · exact queued_takeBytes r' r d _ hqueue hdrops
    · exact queued_same none hqueue hdrops
    · exact queued_takeBytes r' r d _ hqueue hdrops

theorem queued_endCaptureEarly (r : Radio) :
    Queued r r.endCaptureEarly.1 r.endCaptureEarly.2 := by
  rw [Radio.endCaptureEarly]
  by_cases hflag : r.overflowed = true
  · rw [if_pos hflag]
    exact queued_same none rfl rfl
  · rw [if_neg hflag]
    have hsent := queued_sendCapture r.takeTail r r.takeTail.got
      (some ⟨r.tailCount, r.rxbytes, r.got, r.fifo.length⟩) rfl rfl
    simp only
    split_ifs
    · exact ⟨hsent.queue, hsent.drops⟩
    · exact queued_same _ rfl rfl

theorem step_queued (r : Radio) (e : Event) : Queued r (r.step e).1 (r.step e).2 := by
  cases e with
  | arrive b =>
      rw [Radio.step, Radio.arrive]
      split_ifs <;> exact queued_same none rfl rfl
  | drain now =>
      rw [Radio.step]
      cases r.drain with
      | some d => exact queued_same none rfl rfl
      | none =>
          simp only
          rw [Radio.beginDrain]
          split_ifs <;> exact queued_same none rfl rfl
  | iterate rssi freqest =>
      rw [Radio.step]
      cases r.drain with
      | none => exact queued_same none rfl rfl
      | some d => exact queued_iterate r d rssi freqest
  | receive =>
      rw [Radio.step]
      cases hqueue : r.queue with
      | nil => exact queued_same none rfl rfl
      | cons c queue => exact ⟨by rw [hqueue]; exact (List.append_nil _).symm, rfl⟩
  | endEarly => exact queued_endCaptureEarly r
  | restart => exact queued_same none rfl rfl

theorem captures_cons (s : Shown) (shown : List Shown) :
    captures (s :: shown) = s.finished.toList ++ captures shown := by
  rw [captures, List.filterMap_cons]
  cases s.finished <;> rfl

theorem run_queued (r : Radio) (es : List Event) :
    (Machine.run Radio.step r es).2.filterMap Shown.received ++
        (Machine.run Radio.step r es).1.queue =
      r.queue ++ (captures (Machine.run Radio.step r es).2).filterMap took ∧
    (Machine.run Radio.step r es).1.queue_drops =
      r.queue_drops + (captures (Machine.run Radio.step r es).2).countP (fun e => !e.2) := by
  induction es generalizing r with
  | nil => exact ⟨(List.append_nil _).symm, rfl⟩
  | cons e es ih =>
      obtain ⟨hqueue, hdrops⟩ := step_queued r e
      obtain ⟨hqueues, hcount⟩ := ih (r.step e).1
      have hreceived : ∀ l : List Shown, ((r.step e).2 :: l).filterMap Shown.received =
          (r.step e).2.received.toList ++ l.filterMap Shown.received := by
        intro l
        rw [List.filterMap_cons]
        cases (r.step e).2.received <;> rfl
      constructor
      · rw [Machine.run_cons, captures_cons, List.filterMap_append, hreceived, List.append_assoc,
          hqueues, ← List.append_assoc, hqueue, List.append_assoc]
      · rw [Machine.run_cons, captures_cons, List.countP_append, hcount, hdrops, Nat.add_assoc]

theorem framed_start {capture_bytes : ℕ}
    (hsize : 32 ≤ capture_bytes ∧ capture_bytes ≤ dataSize) : Framed (start capture_bytes) :=
  ⟨hsize, Nat.lt_of_lt_of_le (Nat.zero_lt_succ 31) hsize.1, List.length_replicate, Nat.zero_le _, rfl,
    fun _ hd => by cases hd⟩

/-- However bytes, drains and the loop interleave, the finished captures are the stream of
bytes cut into equal pieces, what is in hand and in the FIFO is the rest, and each capture is
received, queued or counted as dropped. -/
theorem drain_conserves {capture_bytes : ℕ}
    (hsize : 32 ≤ capture_bytes ∧ capture_bytes ≤ dataSize) {es : List Event}
    (hes : Machine.Admitted Radio.step Undisturbed (start capture_bytes) es) :
    (pieces (Machine.run Radio.step (start capture_bytes) es).2).flatten ++
        ((Machine.run Radio.step (start capture_bytes) es).1.cur.data.take
            (Machine.run Radio.step (start capture_bytes) es).1.got ++
          (Machine.run Radio.step (start capture_bytes) es).1.fifo) = arrivals es ∧
      (∀ p ∈ pieces (Machine.run Radio.step (start capture_bytes) es).2,
        p.length = capture_bytes) ∧
      (Machine.run Radio.step (start capture_bytes) es).2.filterMap Shown.received ++
          (Machine.run Radio.step (start capture_bytes) es).1.queue =
        (captures (Machine.run Radio.step (start capture_bytes) es).2).filterMap took ∧
      (Machine.run Radio.step (start capture_bytes) es).1.queue_drops =
        (captures (Machine.run Radio.step (start capture_bytes) es).2).countP (fun e => !e.2) ∧
      (Machine.run Radio.step (start capture_bytes) es).1.got < capture_bytes ∧
      ∀ s ∈ (Machine.run Radio.step (start capture_bytes) es).2, ∀ q ∈ s.read,
        SafeRead capture_bytes q := by
  obtain ⟨hframed, hbytes, hcontents, hshown⟩ := run_ok (framed_start hsize) hes
  obtain ⟨hqueue, hdrops⟩ := run_queued (start capture_bytes) es
  refine ⟨?_, ?_, hqueue, hdrops.trans (Nat.zero_add _), ?_, fun s hs => (hshown s hs).2⟩
  · rw [flatten_pieces]
    exact hcontents
  · intro p hp
    obtain ⟨e, he, rfl⟩ := List.mem_map.mp hp
    obtain ⟨s, hs, hfinished⟩ := List.mem_filterMap.mp he
    exact (hshown s hs).1 e hfinished
  · exact hframed.got.trans_eq hbytes

instance (r : Radio) (e : Event) : Decidable (Undisturbed r e) :=
  match e with
  | .arrive _ => inferInstanceAs (Decidable (r.fifo.length < fifoSize))
  | .drain now => inferInstanceAs (Decidable (r.stalled now = false))
  | .iterate _ _ => isTrue trivial
  | .receive => isTrue trivial
  | .endEarly => isFalse not_false
  | .restart => isFalse not_false

/-- Forty bytes, a drain that takes a capture of 32 and all but one byte of the rest, and
another byte that comes in while it runs. -/
def fortyBytes : List Event :=
  (List.range 40).map (fun i => .arrive (BitVec.ofNat 8 i)) ++
    [.drain 40000, .iterate 0 0, .arrive 40, .iterate 0 0, .iterate 0 0, .receive]

theorem drain_conserves_fortyBytes :
    (pieces (Machine.run Radio.step (start 32) fortyBytes).2).flatten ++
        ((Machine.run Radio.step (start 32) fortyBytes).1.cur.data.take
            (Machine.run Radio.step (start 32) fortyBytes).1.got ++
          (Machine.run Radio.step (start 32) fortyBytes).1.fifo) = arrivals fortyBytes ∧
      ∀ p ∈ pieces (Machine.run Radio.step (start 32) fortyBytes).2, p.length = 32 := by
  have hes : Machine.Admitted Radio.step Undisturbed (start 32) fortyBytes := by decide +kernel
  obtain ⟨hbytes, hlength, -⟩ := drain_conserves (by decide) hes
  exact ⟨hbytes, hlength⟩

end InsteonRf.Cc1101
