import InsteonRf.Capture
import InsteonRf.Context
import InsteonRf.Inject

/-!
# The mesh service

Captures become sightings, sightings become events, and each event waits a grace period
for the modem's own copy before it is settled: the modem's verdict is taken, the injector
decides, and the miss table and the record file are told.
-/
namespace InsteonRf
open OrderedDict

/-- One board's recording of one burst. -/
structure Capture where
  receiver : String
  bits : Bits
  timestamp : Time
  rssi_dbm : Option ℚ := none
  soft : Option (List ℚ) := none
  snr_db : Option ℚ := none

/-- The least bytes of a packet in a capture. -/
def captureMinBytes : ℕ := 4

def Capture.sightings (cap : Capture) (clock : Time) : List Sighting :=
  sightingsFromCapture cap.bits cap.receiver cap.rssi_dbm (some cap.timestamp) captureMinBytes
    cap.soft cap.snr_db clock

structure DeviceMisses where
  heard_by_rf : ℕ := 0
  plm_also_heard : ℕ := 0
  plm_missed : ℕ := 0
  injected : ℕ := 0
  best_rssi_dbm : Option ℚ := none
  receivers : Finset String := ∅

def DeviceMisses.note (d : DeviceMisses) (event : FusedEvent) (injected : Bool) : DeviceMisses where
  heard_by_rf := d.heard_by_rf + 1
  plm_also_heard := d.plm_also_heard + if event.plm_saw_it = some true then 1 else 0
  plm_missed := d.plm_missed + if event.plm_saw_it = some false then 1 else 0
  injected := d.injected + if injected then 1 else 0
  best_rssi_dbm := event.receivers.values.foldl (fun best view => bestReading best view.rssi_dbm)
    d.best_rssi_dbm
  receivers := d.receivers ∪ event.receivers.keys.toFinset

/-- How often each device was heard on RF but not by the modem. -/
structure MissTable where
  devices : Dict String DeviceMisses := Dict.empty
  known_addrs : Option (List Address) := none
  unknown_senders : ℕ := 0
  plm_addr : Option Address := none
  plm_own_transmissions : ℕ := 0
  undecodable : ℕ := 0
  messages : ℕ := 0
  heard : Dict String ℕ := Dict.empty
  sole : Dict String ℕ := Dict.empty

namespace MissTable

def score (t : MissTable) (event : FusedEvent) (injected : Bool) (who : Address) : MissTable :=
  { t with
    messages := t.messages + 1
    heard := event.receivers.keys.foldl Dict.bump t.heard
    sole := match event.receivers.keys with
      | [only] => t.sole.bump only
      | _ => t.sole
    devices := t.devices.set who.str (((t.devices.get who.str).getD {}).note event injected) }

def note (t : MissTable) (event : FusedEvent) (injected : Bool) : MissTable :=
  if event.packet.crcOk ≠ some true ∨ event.packet.hopsOk = false then
    { t with undecodable := t.undecodable + 1 }
  else match senderOf event.packet with
    | none => t
    | some who =>
        if t.plm_addr = some who then { t with plm_own_transmissions := t.plm_own_transmissions + 1 }
        else if t.known_addrs.any (fun known => decide (who ∉ known)) then
          { t with unknown_senders := t.unknown_senders + 1 }
        else t.score event injected who

def noteAll (t : MissTable) (calls : List (FusedEvent × Bool)) : MissTable :=
  calls.foldl (fun t c => t.note c.1 c.2) t

/-- The sender is a device whose messages the table counts. -/
def scores (t : MissTable) (who : Address) : Prop :=
  t.plm_addr ≠ some who ∧ ∀ known ∈ t.known_addrs, who ∈ known

end MissTable

structure PlmLink where
  frames : ℕ := 0
  last_frame_at : Option Time := none

namespace PlmLink

def healthy (l : PlmLink) (clock : Time) : Bool :=
  match l.last_frame_at with
  | none => false
  | some last => decide (clock - last < 900)

def note (l : PlmLink) (now : Time) : PlmLink :=
  { l with frames := l.frames + 1, last_frame_at := some now }

end PlmLink

/-- The arguments of the constructor. The fusion and the injector are new ones; of the
mirror and the record file it matters here whether they are given. -/
structure MeshOptions where
  injector : Option InjectorConfig := none
  plm : Bool := false
  fusion : FusionConfig := { lateness_s := 1 }
  skew : Option ClockSkew := some {}
  writer : Bool := false
  tracker : CommandTracker := {}
  require_plm_link : Bool := true
  memory : Option PlmMemory := none
  plm_addr : Option Address := none
  plm_grace_s : Time := 5 / 2
  known_addrs : Option (List Address) := none

/-- The service holds the one memory of what the modem heard; its injector borrows it. -/
structure MeshService where
  injector : Option Injector
  plm : Option PlmLink
  fusion : Fusion
  writer : Bool
  tracker : CommandTracker
  require_plm_link : Bool
  plm_grace_s : Time
  /-- Events with the end of their grace period, oldest first. -/
  holding : List (Time × FusedEvent)
  misses : MissTable
  captures : ℕ
  packets : ℕ
  events : ℕ
  memory : PlmMemory

/-- What the world answers while one event is settled: the wall clock as the mirror's
health is asked, and the kill switch. -/
structure Answer where
  clock : Time
  enabled : Bool

/-- What a call does outside the service: the events the fusion handed over, the calls of
`MissTable.note` and the events given to the writer. -/
structure Effects where
  emitted : List FusedEvent := []
  noted : List (FusedEvent × Bool) := []
  written : List FusedEvent := []

namespace MeshService

def new (o : MeshOptions) : MeshService where
  injector := o.injector.map (fun c => Injector.new c none)
  plm := if o.plm then some {} else none
  fusion := Fusion.fresh o.fusion o.skew
  writer := o.writer
  tracker := o.tracker
  require_plm_link := o.require_plm_link
  plm_grace_s := o.plm_grace_s
  holding := []
  misses :=
    { plm_addr := o.plm_addr <|> o.injector.bind InjectorConfig.plm_addr
      known_addrs := o.known_addrs <|> o.injector.bind InjectorConfig.known_addrs }
  captures := 0
  packets := 0
  events := 0
  memory := match o.memory, o.injector with
    | some memory, _ => memory
    | none, some c => (Injector.new c none).memory
    | none, none => {}

/-- Show a packet to the tracker and give its sighting to the fusion. -/
def observe (arrived clock : Time) (m : MeshService) (s : Sighting) : MeshService :=
  let (tracker, packet) := m.tracker.observe s.packet clock
  { m with tracker, fusion := m.fusion.add { s with packet } (some arrived) }

def handleCapture (m : MeshService) (cap : Capture) (arrived clock : Time) : MeshService :=
  let found := cap.sightings clock
  let m := found.foldl (observe arrived clock) { m with captures := m.captures + 1 }
  { m with packets := m.packets + found.length }

/-- `_on_message`, and through it the memory of what the modem heard. -/
def noteFrame (m : MeshService) (raw : List Byte) (now : Time) : MeshService :=
  { m with plm := m.plm.map (PlmLink.note · now), memory := (m.memory.note raw now).1 }

/-- Whether the injector may be asked. -/
def mayInject (m : MeshService) (clock : Time) : Bool :=
  !(m.require_plm_link && m.plm.any (fun l => !l.healthy clock))

/-- Ask the injector about an event, if there is one and it may be asked. -/
def consult (m : MeshService) (event : FusedEvent) (now : Time) (a : Answer) :
    MeshService × FusedEvent × Bool :=
  match m.injector with
  | none => (m, event, false)
  | some inj =>
      if m.mayInject a.clock then
        let (inj, outcome) := { inj with memory := m.memory }.consider a.enabled event now
        ({ m with injector := some inj, memory := inj.memory }, outcome.event,
          outcome.decision.inject)
      else (m, event, false)

/-- `_finish`: settle one event, with the modem's verdict of now. -/
def finish (m : MeshService) (event : FusedEvent) (now : Time) (a : Answer) :
    MeshService × FusedEvent × Bool :=
  let event := { event with plm_saw_it := some (m.memory.heard event.key event.last_seen) }
  let (m, event, injected) := m.consult event now a
  ({ m with misses := m.misses.note event injected }, event, injected)

def finishAll (now : Time) : MeshService → List FusedEvent → (ℕ → Answer) →
    MeshService × List (FusedEvent × Bool)
  | m, [], _ => (m, [])
  | m, event :: events, ask =>
      let (m, settled) := m.finish event now (ask 0)
      let (m, rest) := finishAll now m events (fun i => ask (i + 1))
      (m, settled :: rest)

def records (m : MeshService) (settled : List (FusedEvent × Bool)) : List FusedEvent :=
  if m.writer then settled.map Prod.fst else []

/-- Close finished buckets, hold their events, and settle those whose grace is over. -/
def drain (m : MeshService) (now : Time) (ask : ℕ → Answer) : MeshService × Effects :=
  let (fusion, ready) := m.fusion.popReady now
  let events := ready.map Emission.event
  let held := m.holding ++ events.map (fun e => (now + m.plm_grace_s, e))
  let due := fun h : Time × FusedEvent => decide (h.1 ≤ now)
  let m := { m with fusion, events := m.events + events.length, holding := held.dropWhile due }
  let (m, settled) := m.finishAll now ((held.takeWhile due).map Prod.snd) ask
  (m, { emitted := events, noted := settled, written := m.records settled })

def flush (m : MeshService) (now : Time) (ask : ℕ → Answer) : MeshService × Effects :=
  let (m, settled) := m.finishAll now (m.holding.map Prod.snd) ask
  ({ m with holding := [] }, { noted := settled, written := m.records settled })

/-- What reaches the service between its start and its stop: a capture, a frame of the
mirror, or a call that settles events. -/
inductive Op where
  | capture (cap : Capture) (arrived clock : Time)
  | frame (raw : List Byte) (now : Time)
  | drain (now : Time) (ask : ℕ → Answer)
  | flush (now : Time) (ask : ℕ → Answer)

def step (m : MeshService) : Op → MeshService × Effects
  | .capture cap arrived clock => (m.handleCapture cap arrived clock, {})
  | .frame raw now => (m.noteFrame raw now, {})
  | .drain now ask => m.drain now ask
  | .flush now ask => m.flush now ask

end MeshService

namespace Effects

/-- Effects of one call after another. -/
def append (e e' : Effects) : Effects where
  emitted := e.emitted ++ e'.emitted
  noted := e.noted ++ e'.noted
  written := e.written ++ e'.written

def all (es : List Effects) : Effects where
  emitted := es.flatMap emitted
  noted := es.flatMap noted
  written := es.flatMap written

end Effects

namespace MeshService

/-- The loop of `run` and of the mesh command, up to the stop. -/
def loop (m : MeshService) (ops : List Op) : MeshService × Effects :=
  ((Machine.run step m ops).1, Effects.all (Machine.run step m ops).2)

/-- The end of `run`: flush the fusion into the held events and settle them all. -/
def shutdown (m : MeshService) (now : Time) (ask : ℕ → Answer) : MeshService × Effects :=
  let (fusion, ready) := m.fusion.flush now
  let events := ready.map Emission.event
  let held := m.holding ++ events.map (fun e => (now, e))
  let (m, effects) :=
    { m with fusion, events := m.events + events.length, holding := held }.flush now ask
  (m, { effects with emitted := events })

/-- `MeshService.run`: its loop until the stop, and the shutdown. -/
def run (m : MeshService) (ops : List Op) (now : Time) (ask : ℕ → Answer) :
    MeshService × Effects :=
  let (m, effects) := m.loop ops
  let (m, last) := m.shutdown now ask
  (m, effects.append last)

/-- The `finally` block of the mesh command: flush the fusion into the miss table and the
writer. What the service holds is not asked about. -/
def cleanup (m : MeshService) (now : Time) : MeshService × Effects :=
  let (fusion, ready) := m.fusion.flush now
  let events := ready.map Emission.event
  ({ m with fusion, misses := m.misses.noteAll (events.map (fun e => (e, false))) },
    { emitted := events
      noted := events.map (fun e => (e, false))
      written := m.records (events.map (fun e => (e, false))) })

/-- The mesh command: the same loop until the stop, and the `finally` block. -/
def meshMain (m : MeshService) (ops : List Op) (now : Time) : MeshService × Effects :=
  let (m, effects) := m.loop ops
  let (m, last) := m.cleanup now
  (m, effects.append last)

def oneCapture : Capture where
  receiver := "a"
  bits := onAir (Packet.ofBytes 0x0B#8 [0x07#8, 0x93#8, 0x2B#8, 0x1D#8, 0x50#8, 0x33#8, 0x11#8,
    0xFF#8, 0x94#8, 0x00#8, 0x00#8, 0xAA#8])
  timestamp := 0

end MeshService

end InsteonRf
