import InsteonRf.Fusion

/-!
# The injector

One place decides whether an event is handed on. It asks what the modem reported
about the message, classifies the packet, and refuses by a chain of checks whose
last links are the rate limits; only then it publishes.
-/
namespace InsteonRf
open OrderedDict

/-- The latest report of each message, by key. -/
structure PlmMemory where
  window_s : Time := 2
  frames : ℕ := 0
  seen : Dict Key Time := Dict.empty

namespace PlmMemory

/-- Record an inbound frame; anything else is ignored. -/
def note (m : PlmMemory) (raw : List Byte) (now : Time) : PlmMemory × Bool :=
  match fromPlmBytes raw with
  | .error _ => (m, false)
  | .ok pkt => ({ m with seen := m.seen.set (messageKey pkt) now, frames := m.frames + 1 }, true)

/-- Whether the modem reported this message around a time, before or after. -/
def heard (m : PlmMemory) (key : Key) (now : Time) : Bool :=
  match m.seen.get key with
  | none => false
  | some w => decide (|now - w| ≤ m.window_s)

def forgetOld (m : PlmMemory) (now : Time) : PlmMemory :=
  { m with seen := m.seen.filter (fun e => !decide (max m.window_s 10 < now - e.2)) }

end PlmMemory

/-- Categories of message, enabled one at a time. -/
inductive Tier where
  | battery
  | group
  | state
  deriving DecidableEq, Repr

def Tier.name : Tier → String
  | battery => "BATTERY"
  | group => "GROUP"
  | state => "STATE"

structure Decision where
  inject : Bool
  reason : String
  tier : Option Tier := none
  frame : Option (List Byte) := none
  would_inject : Bool := false

structure Counters where
  considered : ℕ := 0
  injected : ℕ := 0
  would_inject : ℕ := 0
  refused : Dict String ℕ := Dict.empty

def Counters.refuse (c : Counters) (reason : String) : Counters :=
  { c with refused := c.refused.bump reason }

/-- Who transmitted a packet, whichever address slot it sits in. -/
def senderOf (p : Packet) : Option Address := if p.isGroupBroadcast then p.toAddr else p.fromAddr

def isReply : MsgType → Bool
  | .directAck => true
  | .directNak => true
  | .groupCleanupAck => true
  | .groupCleanupNak => true
  | _ => false

/-- The constructor's arguments; `publish` says whether a callback is given. -/
structure InjectorConfig where
  publish : Bool := true
  plm_addr : Option Address := none
  battery_addrs : List Address := []
  known_addrs : Option (List Address) := none
  allow : List Tier := []
  shadow : Bool := true
  suppress_window_s : Time := 2
  per_device_interval_s : Time := 30
  global_per_minute : ℤ := 6
  min_combined_receivers : ℤ := 3

structure Injector where
  cfg : InjectorConfig
  counters : Counters
  memory : PlmMemory
  last_per_device : Dict Address Time
  recent_injections : List Time

/-- A packet that belongs to a tier has a sender. -/
structure Classified (p : Packet) where
  tier : Tier
  why : String
  sender : Address
  sender_eq : senderOf p = some sender

/-- What a call of `consider` leaves behind: its decision, the event with the modem's
verdict, and the calls of `publish`. -/
structure Outcome where
  now : Time
  decision : Decision
  event : FusedEvent
  published : List (List Byte × FusedEvent) := []

namespace Injector

def new (cfg : InjectorConfig) (memory : Option PlmMemory) : Injector where
  cfg := cfg
  counters := {}
  memory := memory.getD { window_s := cfg.suppress_window_s }
  last_per_device := Dict.empty
  recent_injections := []

/-- The tier a message belongs to, or why it belongs to none. -/
def classify (cfg : InjectorConfig) (p : Packet) : Except String (Classified p) :=
  if isReply p.msgType then .error "reply to an outstanding command"
  else match h : senderOf p with
    | none => .error "no sender address"
    | some sender =>
        if cfg.plm_addr = some sender then .error "the PLM's own transmission"
        else if cfg.known_addrs.any (fun known => decide (sender ∉ known)) then
          .error "sender is not a device on this network"
        else if sender ∈ cfg.battery_addrs then .ok ⟨.battery, "battery device", sender, h⟩
        else if p.isGroupBroadcast || decide (p.msgType = .groupCleanup) then
          .ok ⟨.group, "group broadcast", sender, h⟩
        else if p.msgType = .direct then .ok ⟨.state, "unsolicited direct", sender, h⟩
        else .error ("unhandled message type " ++ p.msgType.name)

def vet (cfg : InjectorConfig) (enabled : Bool) (event : FusedEvent) :
    Except String (Classified event.packet) := do
  if !enabled then throw "kill switch"
  let c ← classify cfg event.packet
  if c.tier ∉ cfg.allow then throw ("tier " ++ c.tier.name ++ " not enabled")
  if event.packet.crcOk ≠ some true then throw "CRC did not pass"
  if event.packet.index_ok = some false then throw "frame-index counters rejected"
  if !event.packet.hopsOk then throw "impossible hop fields"
  if event.packet.extended && decide (event.packet.extCrcOk = some false) then
    throw "extended data CRC did not pass"
  if event.packet.corrected ≠ 0 then
    throw (toString event.packet.corrected ++ " bit(s) repaired by CRC search")
  if event.combined && decide ((event.combined_from : ℤ) < cfg.min_combined_receivers) then
    throw ("combined from only " ++ toString event.combined_from ++ " receivers (need " ++
      toString cfg.min_combined_receivers ++ ")")
  return c

def no (inj : Injector) (now : Time) (event : FusedEvent) (reason : String) : Injector × Outcome :=
  ({ inj with counters := inj.counters.refuse reason },
    { now, event, decision := { inject := false, reason } })

def forgetOld (inj : Injector) (now : Time) : Injector :=
  { inj with
    memory := inj.memory.forgetOld now
    recent_injections := inj.recent_injections.filter (fun t => decide (now - t < 60)) }

def begin (inj : Injector) (now : Time) : Injector :=
  ({ inj with counters := { inj.counters with considered := inj.counters.considered + 1 } }).forgetOld
    now

theorem begin_cfg (inj : Injector) (now : Time) : (inj.begin now).cfg = inj.cfg := rfl

theorem begin_memory (inj : Injector) (now : Time) :
    (inj.begin now).memory = inj.memory.forgetOld now := rfl

theorem begin_counters (inj : Injector) (now : Time) :
    (inj.begin now).counters = { inj.counters with considered := inj.counters.considered + 1 } := rfl

def perDeviceLimited (inj : Injector) (sender : Address) (now : Time) : Bool :=
  match inj.last_per_device.get sender with
  | none => false
  | some last => decide (now - last < inj.cfg.per_device_interval_s)

def globalLimited (inj : Injector) : Bool :=
  decide (inj.cfg.global_per_minute ≤ (inj.recent_injections.length : ℤ))

theorem perDeviceLimited_eq_false {inj : Injector} {sender : Address} {now : Time} :
    inj.perDeviceLimited sender now = false ↔
      ∀ last ∈ inj.last_per_device.get sender, last + inj.cfg.per_device_interval_s ≤ now := by
  rw [perDeviceLimited]
  cases inj.last_per_device.get sender with
  | none => simp
  | some last => simp [le_sub_iff_add_le']

theorem globalLimited_eq_false {inj : Injector} :
    inj.globalLimited = false ↔
      (inj.recent_injections.length : ℤ) < inj.cfg.global_per_minute := by
  simp [globalLimited]

def inject (inj : Injector) (now : Time) (event : FusedEvent) (tier : Tier) (sender : Address)
    (frame : List Byte) : Injector × Outcome :=
  ({ inj with
      last_per_device := inj.last_per_device.set sender now
      recent_injections := inj.recent_injections ++ [now]
      counters := { inj.counters with injected := inj.counters.injected + 1 } },
    { now, event
      decision := { inject := true, reason := "injected", tier := some tier, frame := some frame }
      published := if inj.cfg.publish then [(frame, event)] else [] })

/-- Decide about one event, and act on the decision. -/
def consider (inj : Injector) (enabled : Bool) (event : FusedEvent) (now : Time) :
    Injector × Outcome :=
  let inj := inj.begin now
  match vet inj.cfg enabled event with
  | .error reason => inj.no now event reason
  | .ok c =>
      -- Asked about the message's own time, not the time of the decision.
      if inj.memory.heard event.key event.last_seen then
        inj.no now { event with plm_saw_it := some true } "the PLM already heard it"
      else
        let event := { event with plm_saw_it := some false }
        if inj.perDeviceLimited c.sender now then inj.no now event "per-device rate limit"
        else if inj.globalLimited then inj.no now event "global rate limit"
        else match toPlmBytes event.packet true with
          | .error exc => inj.no now event ("cannot render as a PLM frame: " ++ exc)
          | .ok frame =>
              if inj.cfg.shadow then
                ({ inj with
                    counters := { inj.counters with would_inject := inj.counters.would_inject + 1 } },
                  { now, event
                    decision := { inject := false, reason := "shadow mode", tier := some c.tier,
                                  frame := some frame, would_inject := true } })
              else inj.inject now event c.tier c.sender frame

inductive Op where
  | notePlm (raw : List Byte) (now : Time)
  | consider (enabled : Bool) (event : FusedEvent) (now : Time)

/-- One call, with what it leaves behind if it is a call of `consider`. -/
def step (inj : Injector) : Op → Injector × List Outcome
  | .notePlm raw now => ({ inj with memory := (inj.memory.note raw now).1 }, [])
  | .consider enabled event now =>
      ((inj.consider enabled event now).1, [(inj.consider enabled event now).2])

def run (inj : Injector) (ops : List Op) : Injector × List Outcome :=
  ((Machine.run step inj ops).1, (Machine.run step inj ops).2.flatten)

def Op.time : Op → Time
  | .notePlm _ now => now
  | .consider _ _ now => now

theorem run_cons (inj : Injector) (op : Op) (ops : List Op) :
    inj.run (op :: ops) =
      (((inj.step op).1.run ops).1, (inj.step op).2 ++ ((inj.step op).1.run ops).2) := rfl

/-- What the checks on an event alone have established when it passes them. -/
structure Vetted (cfg : InjectorConfig) (event : FusedEvent) (c : Classified event.packet) :
    Prop where
  classified : classify cfg event.packet = .ok c
  allowed : c.tier ∈ cfg.allow
  crc : event.packet.crcOk = some true
  index : event.packet.index_ok ≠ some false
  hops : event.packet.hopsOk = true
  ext : event.packet.extended = true → event.packet.extCrcOk ≠ some false
  unrepaired : event.packet.corrected = 0
  votes : event.combined = true → cfg.min_combined_receivers ≤ (event.combined_from : ℤ)

theorem vetted_of_vet {cfg : InjectorConfig} {enabled : Bool} {event : FusedEvent}
    {c : Classified event.packet} (h : vet cfg enabled event = .ok c) :
    enabled = true ∧ Vetted cfg event c := by
  cases enabled with
  | false => cases h
  | true =>
      refine ⟨rfl, ?_⟩
      cases hclass : classify cfg event.packet with
      | error reason =>
          rw [vet, hclass] at h
          cases h
      | ok d =>
          rw [vet, hclass] at h
          simp only [Bool.not_true, Bool.false_eq_true, if_false, bind, Except.bind, pure,
            Except.pure, throw, throwThe, MonadExceptOf.throw] at h
          split_ifs at h with hallow hcrc hindex hhops hext hcorrected hvotes
          cases h
          exact
            { classified := hclass
              allowed := by simpa using hallow
              crc := by simpa using hcrc
              index := hindex
              hops := by simpa using hhops
              ext := by simpa using hext
              unrepaired := by simpa using hcorrected
              votes := by simpa using hvotes }

/-- The three ways a call ends: refused and counted so, stopped by shadow mode, or
injected past both limits and a silent modem. -/
theorem consider_cases (inj : Injector) (enabled : Bool) (event : FusedEvent) (now : Time) :
    (∃ saw reason, inj.consider enabled event now =
      (inj.begin now).no now { event with plm_saw_it := saw } reason) ∨
    (inj.cfg.shadow = true ∧ ∃ d, d.inject = false ∧ inj.consider enabled event now =
      ({ inj.begin now with counters := { (inj.begin now).counters with
          would_inject := (inj.begin now).counters.would_inject + 1 } },
        { now, event := { event with plm_saw_it := some false }, decision := d })) ∨
    (∃ (c : Classified event.packet) (frame : List Byte), inj.cfg.shadow = false ∧
      vet inj.cfg enabled event = .ok c ∧
      (inj.begin now).memory.heard event.key event.last_seen = false ∧
      (inj.begin now).perDeviceLimited c.sender now = false ∧
      (inj.begin now).globalLimited = false ∧ toPlmBytes event.packet true = .ok frame ∧
      inj.consider enabled event now =
        (inj.begin now).inject now { event with plm_saw_it := some false } c.tier c.sender frame) := by
  cases hvet : vet inj.cfg enabled event with
  | error reason =>
      exact Or.inl ⟨event.plm_saw_it, reason, by simp [consider, begin_cfg, hvet]⟩
  | ok c =>
      by_cases hheard : (inj.begin now).memory.heard event.key event.last_seen = true
      · exact Or.inl ⟨some true, _, by simp [consider, begin_cfg, hvet, hheard]; rfl⟩
      by_cases hdevice : (inj.begin now).perDeviceLimited c.sender now = true
      · exact Or.inl ⟨some false, _, by simp [consider, begin_cfg, hvet, hheard, hdevice]; rfl⟩
      by_cases hglobal : (inj.begin now).globalLimited = true
      · exact Or.inl ⟨some false, _, by simp [consider, begin_cfg, hvet, hheard, hdevice, hglobal]; rfl⟩
      cases hframe : toPlmBytes event.packet true with
      | error exc =>
          exact Or.inl ⟨some false, _,
            by simp [consider, begin_cfg, hvet, hheard, hdevice, hglobal, hframe]; rfl⟩
      | ok frame =>
          by_cases hshadow : inj.cfg.shadow = true
          · exact Or.inr (Or.inl ⟨hshadow, _, rfl,
              by simp [consider, begin_cfg, hvet, hheard, hdevice, hglobal, hframe, hshadow]; rfl⟩)
          · refine Or.inr (Or.inr ⟨c, frame, by simpa using hshadow, rfl, by simpa using hheard,
              by simpa using hdevice, by simpa using hglobal, rfl, ?_⟩)
            simp [consider, begin_cfg, hvet, hheard, hdevice, hglobal, hframe, hshadow]

/-- An injected event has passed the checks on it and the modem was silent about it. -/
theorem injected_cases {inj : Injector} {enabled : Bool} {event : FusedEvent} {now : Time}
    (h : (inj.consider enabled event now).2.decision.inject = true) :
    ∃ c : Classified event.packet, vet inj.cfg enabled event = .ok c ∧
      (inj.begin now).memory.heard event.key event.last_seen = false := by
  rcases inj.consider_cases enabled event now with
    ⟨saw, reason, hst⟩ | ⟨-, d, hd, hst⟩ | ⟨c, frame, -, hvet, hsilent, -, -, -, -⟩
  · rw [hst] at h
    cases h
  · rw [hst] at h
    rw [hd] at h
    cases h
  · exact ⟨c, hvet, hsilent⟩

theorem consider_cfg (inj : Injector) (enabled : Bool) (event : FusedEvent) (now : Time) :
    (inj.consider enabled event now).1.cfg = inj.cfg := by
  rcases inj.consider_cases enabled event now with
    ⟨saw, reason, hst⟩ | ⟨-, d, -, hst⟩ | ⟨c, frame, -, -, -, -, -, -, hst⟩ <;> rw [hst] <;> rfl

theorem step_cfg (inj : Injector) (op : Op) : (inj.step op).1.cfg = inj.cfg := by
  cases op with
  | notePlm raw now => rfl
  | consider enabled event now => exact consider_cfg inj enabled event now

theorem run_cfg (inj : Injector) (ops : List Op) : (inj.run ops).1.cfg = inj.cfg :=
  Machine.invariant (P := fun next : Injector => next.cfg = inj.cfg)
    (fun next op h => (step_cfg next op).trans h) rfl ops

def openConfig : InjectorConfig where
  plm_addr := some (Address.ofBytes 0x2B#8 0x93#8 0x07#8)
  allow := [.battery, .group, .state]
  shadow := false

def commandEvent (timestamp : Time) : FusedEvent :=
  let copy := Fusion.commandCopy 0x01#8 0x35#8 "a" (-70) timestamp
  (Bucket.new copy.key copy).build true

end Injector

end InsteonRf
