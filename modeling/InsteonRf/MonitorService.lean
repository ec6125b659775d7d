import InsteonRf.AllOn
import InsteonRf.Decode
import InsteonRf.Dedupe
import InsteonRf.MqttPublish

/-!
# The receiver that keeps the log

Two threads share a queue of limited size. The receive loop does nothing but drain the radio: a
live radio drops the block for which there is no room, a replay waits until there is. Everything
else happens to a block behind the queue, on the decode thread: it is published as a capture,
decoded, watched, folded into the pending records and, when its window has closed, logged. At
shutdown a sentinel follows the last block, and what is still pending is flushed.
-/
namespace InsteonRf
open OrderedDict

namespace MonitorService

structure Block where
  ts : Time
  bits : Bits
  soft : Option (List ℚ) := none
  header_index : Option ℤ := none
  snr_db : Option ℚ := none
  rssi : Option ℚ := none
  deriving DecidableEq

structure Args where
  queue : ℤ := 512
  lossless : Bool := false
  rfcat : Bool := true
  mesh_capture : Option String := none
  repair : Bool := true
  show_all : Bool := false
  /-- The window, unless `--no-dedupe`. -/
  dedupe : Option Time := some dedupeWindowS
  watch_all_on : Option AllOnConfig := none

def Args.maxsize (a : Args) : ℕ := (max 1 a.queue).toNat

/-- What is logged: a packet by itself, or a record of its copies. -/
abbrev Entry := Packet ⊕ Record

def Entry.repeats : Entry → ℕ := Sum.elim (fun _ => 1) Record.repeats

/-- What the decode thread is at. -/
inductive Worker where
  | waiting
  /-- The packets of a block that are still to be logged; with none left, the records whose
  window has closed are. -/
  | logging (b : Block) (todo : List Packet)
  | returned
  /-- An exception while logging ready records is not caught. -/
  | dead
  deriving DecidableEq

/-- What the receive loop is at. -/
inductive Phase where
  | receiving
  /-- In `work.put`, waiting for room. -/
  | blocked (b : Block)
  /-- In `work.put(None, timeout=5.0)`. -/
  | stopping
  | joining
  /-- The pending records are flushed; `joined` when the decode thread had ended before. -/
  | closed (joined : Bool)
  deriving DecidableEq

structure State where
  work : List (Option Block) := []
  phase : Phase := .receiving
  worker : Worker := .waiting
  dropped : ℕ := 0
  tracker : CommandTracker := {}
  watcher : Option AllOnWatcher
  dd : Option Deduper
  capture_seq : ℕ := 0
  junk_blocks : ℕ := 0
  seen : ℕ := 0

def fresh (a : Args) : State where
  watcher := a.watch_all_on.map AllOnWatcher.fresh
  dd := a.dedupe.map (fun window_s => { window_s })

/-- Which of the calls that reach outside the process raise. -/
structure Faults where
  /-- Reporting a trigger or publishing the alert. -/
  report : Bool := false
  /-- The entry whose logging fails, counted in one call of `emit`. -/
  emit : Option ℕ := none

inductive Op where
  | receive (b : Block)
  /-- The loop ends, or a signal ends it. -/
  | shutdown
  /-- The `put` that waits for room looks for it. -/
  | put
  /-- The five seconds are over. -/
  | giveUp
  | close (faults : Faults)
  | idle (clock : Time) (faults : Faults)
  /-- `clock` is what the tracker would read for each packet; `published` is false where the
  client refuses the capture. -/
  | take (clock : ℕ → Time) (published : Bool)
  | log (clock : Time) (faults : Faults)

structure Shown where
  arrived : List Block := []
  refused : List Block := []
  taken : List Block := []
  /-- The blocks published as captures, with their sequence numbers. -/
  captures : List (Block × ℕ) := []
  /-- The blocks that came to be decoded, and the packets found. -/
  decoded : List Block := []
  found : List Packet := []
  /-- The packets folded into a record or logged, and those left behind by an exception. -/
  handled : List Packet := []
  spoiled : List Packet := []
  /-- The entries handed to `emit`, each with whether it was logged. -/
  emitted : List (Entry × Bool) := []

section
variable (a : Args)

def hasRoom (s : State) : Bool := decide (s.work.length < a.maxsize)

/-- A block from the radio; the loop is not there to receive one while it waits or after it ends. -/
def receive (s : State) (b : Block) : State × Shown :=
  match s.phase with
  | .receiving =>
      if hasRoom a s then ({ s with work := s.work ++ [some b] }, { arrived := [b] })
      else if a.lossless then ({ s with phase := .blocked b }, { arrived := [b] })
      else ({ s with dropped := s.dropped + 1 }, { arrived := [b], refused := [b] })
  | _ => (s, {})

/-- A signal may find the loop waiting with a block. -/
def shutdown (s : State) : State × Shown :=
  match s.phase with
  | .receiving => ({ s with phase := .stopping }, {})
  | .blocked b => ({ s with phase := .stopping }, { refused := [b] })
  | _ => (s, {})

/-- The block that waits for room, or the sentinel, takes its place. -/
def put (s : State) : State × Shown :=
  match s.phase with
  | .blocked b =>
      if hasRoom a s then ({ s with work := s.work ++ [some b], phase := .receiving }, {})
      else (s, {})
  | .stopping =>
      if hasRoom a s then ({ s with work := s.work ++ [none], phase := .joining }, {})
      else (s, {})
  | _ => (s, {})

/-- `queue.Full` behind the five seconds: the thread is joined without a sentinel. -/
def giveUp (s : State) : State × Shown :=
  match s.phase with
  | .stopping => if hasRoom a s then (s, {}) else ({ s with phase := .joining }, {})
  | _ => (s, {})

/-- `emit`: each entry with whether it was logged; from the one that fails on, none is. -/
def emit (recs : List Entry) (faults : Faults) : List (Entry × Bool) :=
  recs.zipIdx.map (fun e => (e.1, faults.emit.all (fun k => decide (e.2 < k))))

def emitOk (recs : List Entry) (faults : Faults) : Bool :=
  faults.emit.all (fun k => decide (recs.length ≤ k))

/-- How many entries `emit` counts as seen: the one that fails is counted. -/
def emitSeen (recs : List Entry) (faults : Faults) : ℕ :=
  faults.emit.elim recs.length (fun k => min recs.length (k + 1))

/-- `emit(dd.pop_ready())`, and what the thread is at behind it. -/
def emitReady (s : State) (clock : Time) (faults : Faults) : State × Shown :=
  match s.dd with
  | none => ({ s with worker := .waiting }, {})
  | some dd =>
      let popped := dd.popReady none clock
      let recs := popped.2.map Sum.inr
      ({ s with
          dd := some popped.1
          worker := if emitOk recs faults then .waiting else .dead
          seen := s.seen + emitSeen recs faults }, { emitted := emit recs faults })

/-- The join has ended or run out of time; the rest of the pending records is logged. -/
def close (s : State) (faults : Faults) : State × Shown :=
  match s.phase with
  | .joining =>
      let joined := match s.worker with
        | .returned => true
        | .dead => true
        | _ => false
      match s.dd with
      | none => ({ s with phase := .closed joined }, {})
      | some dd =>
          let recs := dd.flush.2.map Sum.inr
          ({ s with
              phase := .closed joined
              dd := some dd.flush.1
              seen := s.seen + emitSeen recs faults }, { emitted := emit recs faults })
  | _ => (s, {})

/-- The record's fields that come from the block. -/
def annotate (b : Block) (pkt : Packet) : Packet :=
  { pkt with rssi_dbm := b.rssi, snr_db := b.snr_db.or pkt.snr_db }

/-- Whether the block goes out as a capture with this number; `none` where that raises. -/
def publishes (b : Block) (seq : ℕ) (published : Bool) : Option (List (Block × ℕ)) :=
  match a.mesh_capture with
  | none => some []
  | some receiver =>
      match Mqtt.captureRecord b.bits b.soft b.header_index
        { receiver, timestamp := .finite b.ts, seq
          rssi_dbm := if a.rfcat then none else b.rssi.map Mqtt.Double.finite
          snr_db := b.snr_db.map Mqtt.Double.finite } with
      | .ok _ => if published then some [(b, seq)] else none
      | .error _ => none

def decodeBlock (t : CommandTracker) (b : Block) (clock : ℕ → Time) :
    Except IndexError (List Packet × Option CommandTracker) :=
  decode b.bits (some b.ts) a.repair a.show_all b.soft b.header_index (some t) clock

def process (s : State) (b : Block) (clock : ℕ → Time) (published : Bool) : State × Shown :=
  let seq := s.capture_seq + if a.mesh_capture.isSome then 1 else 0
  let s := { s with capture_seq := seq, worker := .logging b [] }
  match publishes a b seq published with
  | none => (s, { taken := [b] })
  | some captures =>
      match decodeBlock a s.tracker b clock with
      | .error _ => (s, { taken := [b], captures, decoded := [b] })
      | .ok (packets, tracker) =>
          ({ s with
              tracker := tracker.getD s.tracker
              worker := .logging b (packets.map (annotate b))
              junk_blocks :=
                if packets.any (fun q => q.calcCrc.isSome) then 0 else s.junk_blocks + 1 },
            { taken := [b], captures, decoded := [b], found := packets.map (annotate b) })

def take (s : State) (clock : ℕ → Time) (published : Bool) : State × Shown :=
  match s.worker, s.work with
  | .waiting, none :: rest => ({ s with work := rest, worker := .returned }, {})
  | .waiting, some b :: rest => process a { s with work := rest } b clock published
  | _, _ => (s, {})

/-- The watcher sees a packet before it is logged; whether something raised there. -/
def watch (s : State) (b : Block) (pkt : Packet) (clock : Time) (faults : Faults) :
    Option AllOnWatcher × Bool :=
  match s.watcher with
  | none => (none, false)
  | some w =>
      let observed := w.observe
        { packet := some pkt, bits := b.bits, rssi_dbm := b.rssi, snr_db := pkt.snr_db, clock }
      (some observed.1, match observed.2 with
        | .error _ => true
        | .ok triggers => !triggers.isEmpty && faults.report)

/-- One packet of the block; what raises leaves the rest of the block behind. -/
def logPacket (s : State) (b : Block) (pkt : Packet) (rest : List Packet) (clock : Time)
    (faults : Faults) : State × Shown :=
  let watched := watch s b pkt clock faults
  if watched.2 then
    ({ s with watcher := watched.1, worker := .logging b [] }, { spoiled := pkt :: rest })
  else match s.dd with
    | some dd =>
        ({ s with watcher := watched.1, dd := some (dd.add pkt clock), worker := .logging b rest },
          { handled := [pkt] })
    | none =>
        let ok := emitOk [.inl pkt] faults
        ({ s with
            watcher := watched.1
            worker := .logging b (if ok then rest else [])
            seen := s.seen + 1 },
          { handled := [pkt], spoiled := if ok then [] else rest
            emitted := emit [.inl pkt] faults })

/-- The next packet in hand, or, with none left, the records whose window has closed. -/
def log (s : State) (clock : Time) (faults : Faults) : State × Shown :=
  match s.worker with
  | .logging b (pkt :: rest) => logPacket s b pkt rest clock faults
  | .logging _ [] => emitReady s clock faults
  | _ => (s, {})

/-- `queue.Empty`: records have to age out also while the air is silent. -/
def idle (s : State) (clock : Time) (faults : Faults) : State × Shown :=
  match s.worker, s.work with
  | .waiting, [] => emitReady s clock faults
  | _, _ => (s, {})

def step (s : State) : Op → State × Shown
  | .receive b => receive a s b
  | .shutdown => shutdown s
  | .put => put a s
  | .giveUp => giveUp a s
  | .close faults => close s faults
  | .idle clock faults => idle s clock faults
  | .take clock published => take a s clock published
  | .log clock faults => log s clock faults

end

def arrived (os : List Shown) : List Block := os.flatMap Shown.arrived
def refused (os : List Shown) : List Block := os.flatMap Shown.refused
def taken (os : List Shown) : List Block := os.flatMap Shown.taken
def captures (os : List Shown) : List (Block × ℕ) := os.flatMap Shown.captures
def decoded (os : List Shown) : List Block := os.flatMap Shown.decoded
def found (os : List Shown) : List Packet := os.flatMap Shown.found
def handled (os : List Shown) : List Packet := os.flatMap Shown.handled
def spoiled (os : List Shown) : List Packet := os.flatMap Shown.spoiled
def emitted (os : List Shown) : List (Entry × Bool) := os.flatMap Shown.emitted

/-- The loop has ended and puts no more blocks into the queue. -/
def Phase.Over : Phase → Prop
  | .receiving => False
  | .blocked _ => False
  | .stopping => True
  | .joining => True
  | .closed _ => True

/-- The sentinel was put, or given up. -/
def Phase.Joined : Phase → Prop
  | .receiving => False
  | .blocked _ => False
  | .stopping => False
  | .joining => True
  | .closed _ => True

def State.blocks (s : State) : List Block :=
  s.work.filterMap id ++ (match s.phase with | .blocked b => [b] | _ => [])

def State.todo (s : State) : List Packet :=
  match s.worker with
  | .logging _ todo => todo
  | _ => []

def State.pending (s : State) : List Record :=
  s.dd.elim [] (fun dd => dd.pending.values.map Prod.snd)

/-- The sentinel is put once, behind every block, and the thread that took it takes no more. -/
inductive Sentinel : State → Prop where
  | unsent {s : State} (blocks : List Block) (hwork : s.work = blocks.map some)
      (hworker : s.worker ≠ .returned) : Sentinel s
  | sent {s : State} (blocks : List Block) (hwork : s.work = blocks.map some ++ [none])
      (hworker : s.worker ≠ .returned) (hjoined : s.phase.Joined) : Sentinel s
  | taken {s : State} (hwork : s.work = []) (hworker : s.worker = .returned)
      (hjoined : s.phase.Joined) : Sentinel s

/-- Every block is taken in its turn, waits, or was refused. -/
structure Queued (a : Args) (s : State) (os : List Shown) : Prop where
  sentinel : Sentinel s
  inOrder : (taken os ++ s.blocks).Sublist (arrived os)
  kept : (arrived os).Perm (taken os ++ s.blocks ++ refused os)
  room : s.work.length ≤ a.maxsize
  waits : ∀ b, s.phase = .blocked b → a.lossless = true
  live : a.lossless = false → (refused os).length = s.dropped
  replay : a.lossless = true → s.dropped = 0 ∧ (refused os).length ≤ 1 ∧
    (¬ s.phase.Over → refused os = [])

theorem Phase.Joined.over {p : Phase} (h : p.Joined) : p.Over := by
  cases p with
  | receiving => exact h
  | blocked b => exact h
  | stopping => exact h.elim
  | joining => trivial
  | closed joined => trivial

theorem blocks_of_over {s : State} (h : s.phase.Over) : s.blocks = s.work.filterMap id := by
  unfold State.blocks
  cases hphase : s.phase with
  | receiving => exact List.append_nil _
  | blocked b => rw [hphase] at h; exact h.elim
  | stopping => exact List.append_nil _
  | joining => exact List.append_nil _
  | closed joined => exact List.append_nil _

structure LeavesQueue (s s' : State) (o : Shown) : Prop where
  work : s'.work = s.work
  dropped : s'.dropped = s.dropped
  phase : s'.phase = s.phase ∨ s.phase.Over ∧ s'.phase.Joined
  worker : s'.worker = .returned ↔ s.worker = .returned
  arrived : o.arrived = []
  refused : o.refused = []
  taken : o.taken = []

section
variable {a : Args} {s s' : State} {os : List Shown} {o : Shown}

theorem LeavesQueue.over (h : LeavesQueue s s' o) : s'.phase.Over ↔ s.phase.Over := by
  obtain hsame | ⟨hover, hjoined⟩ := h.phase
  · rw [hsame]
  · exact iff_of_true hjoined.over hover

theorem LeavesQueue.joined (h : LeavesQueue s s' o) (hs : s.phase.Joined) : s'.phase.Joined := by
  obtain hsame | ⟨_, hjoined⟩ := h.phase
  · rwa [hsame]
  · exact hjoined

theorem LeavesQueue.blocks (h : LeavesQueue s s' o) : s'.blocks = s.blocks := by
  obtain hsame | ⟨hover, hjoined⟩ := h.phase
  · unfold State.blocks
    rw [h.work, hsame]
  · rw [blocks_of_over hover, blocks_of_over hjoined.over, h.work]

theorem LeavesQueue.sentinel (h : LeavesQueue s s' o) (hs : Sentinel s) : Sentinel s' := by
  cases hs with
  | unsent blocks hwork hworker =>
      exact .unsent blocks (h.work.trans hwork) (fun hr => hworker (h.worker.mp hr))
  | sent blocks hwork hworker hjoined =>
      exact .sent blocks (h.work.trans hwork) (fun hr => hworker (h.worker.mp hr))
        (h.joined hjoined)
  | taken hwork hworker hjoined =>
      exact .taken (h.work.trans hwork) (h.worker.mpr hworker) (h.joined hjoined)

theorem Queued.leaves (hs : Queued a s os) (h : LeavesQueue s s' o) : Queued a s' (os ++ [o]) := by
  have harrived : arrived (os ++ [o]) = arrived os := by simp [arrived, h.arrived]
  have hrefused : refused (os ++ [o]) = refused os := by simp [refused, h.refused]
  have htaken : taken (os ++ [o]) = taken os := by simp [taken, h.taken]
  constructor
  · exact h.sentinel hs.sentinel
  · rw [harrived, htaken, h.blocks]
    exact hs.inOrder
  · rw [harrived, htaken, hrefused, h.blocks]
    exact hs.kept
  · rw [h.work]
    exact hs.room
  · intro b hb
    obtain hsame | ⟨_, hjoined⟩ := h.phase
    · exact hs.waits b (hsame ▸ hb)
    · rw [hb] at hjoined
      exact hjoined.elim
  · rw [hrefused, h.dropped]
    exact hs.live
  · rw [hrefused, h.dropped, h.over]
    exact hs.replay

end

section
variable {a : Args} {s : State} {os : List Shown}

theorem Queued.keeps {s' : State} {o : Shown} (hs : Queued a s os) (hsentinel : Sentinel s')
    (hblocks : o.taken ++ s'.blocks = s.blocks) (hroom : s'.work.length ≤ a.maxsize)
    (hwaits : ∀ b, s'.phase = .blocked b → a.lossless = true) (hdropped : s'.dropped = s.dropped)
    (hover : s'.phase.Over ↔ s.phase.Over) (harrived : o.arrived = []) (hrefused : o.refused = []) :
    Queued a s' (os ++ [o]) := by
  have hall : arrived (os ++ [o]) = arrived os := by simp [arrived, harrived]
  have hnone : refused (os ++ [o]) = refused os := by simp [refused, hrefused]
  have hline : taken (os ++ [o]) ++ s'.blocks = taken os ++ s.blocks := by
    rw [← hblocks]
    simp [taken]
  refine ⟨hsentinel, ?_, ?_, hroom, hwaits, ?_, ?_⟩
  · rw [hline, hall]
    exact hs.inOrder
  · rw [hline, hall, hnone]
    exact hs.kept
  · rw [hnone, hdropped]
    exact hs.live
  · rw [hnone, hdropped, hover]
    exact hs.replay

theorem Queued.pop {s' : State} {o : Shown} (hs : Queued a s os) {i : Option Block}
    {rest : List (Option Block)} (hwork : s.work = i :: rest) (hrest : s'.work = rest)
    (hphase : s'.phase = s.phase) (hdropped : s'.dropped = s.dropped) (hsentinel : Sentinel s')
    (harrived : o.arrived = []) (hrefused : o.refused = []) (htaken : o.taken = i.toList) :
    Queued a s' (os ++ [o]) := by
  refine hs.keeps hsentinel ?_ ?_ ?_ hdropped (by rw [hphase]) harrived hrefused
  · unfold State.blocks
    rw [htaken, hrest, hphase, hwork, ← List.append_assoc]
    cases i <;> rfl
  · have hroom := hs.room
    rw [hwork, List.length_cons] at hroom
    rw [hrest]
    exact (Nat.le_succ _).trans hroom
  · rw [hphase]
    exact hs.waits

end

end MonitorService

end InsteonRf
