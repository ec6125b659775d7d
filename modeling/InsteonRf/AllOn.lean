import InsteonRf.Plm
import InsteonRf.Lib.Machine
import InsteonRf.Lib.OrderedDict
import Mathlib.Data.Int.Log

/-!
# Watching for phantom all-on events

Early devices obey an all-link broadcast to group 0, which means every device. The watcher
keeps the recent bursts, a tally for each sender, and raises triggers, each at most once in a
cooldown.
-/
namespace InsteonRf
open OrderedDict

def onCommands : List Byte := [0x11#8, 0x12#8]

def allDevicesGroup : Byte := 0

/-- Groups that devices use for their own purposes. -/
def deviceGroups : List ℤ := [1, 2, 3, 4, 5, 6, 7, 8]

/-- One burst as it arrived, kept for context. -/
structure Seen where
  at_ : Time
  bits : Bits
  packet : Option Packet
  rssi_dbm : Option ℚ
  snr_db : Option ℚ

inductive TriggerKind where
  | allLinkGroup0
  | unknownGroup
  | storm
  deriving DecidableEq

def TriggerKind.name : TriggerKind → String
  | allLinkGroup0 => "all-link-group-0"
  | unknownGroup => "unknown-group"
  | storm => "storm"

structure Trigger where
  kind : TriggerKind
  at_ : Time
  detail : String
  packet : Option Packet
  deriving DecidableEq

/-- Running tally for one sender. -/
structure Suspect where
  address : String
  packets : ℕ := 0
  crc_failures : ℕ := 0
  group0 : ℕ := 0
  unknown_group : ℕ := 0
  repaired : ℕ := 0
  rssi_sum : ℚ := 0
  rssi_count : ℕ := 0

structure AllOnConfig where
  known_groups : Option (List ℤ) := none
  window_s : Time := 30
  storm_count : ℤ := 12
  storm_window_s : Time := 3
  device_groups : List ℤ := deviceGroups
  cooldown_s : Time := 300

/-- What a cooldown goes by: the kind, the sender and the group. -/
abbrev Signature := TriggerKind × String × ℤ

structure AllOnWatcher where
  cfg : AllOnConfig
  history : List Seen := []
  suspects : Dict String Suspect := Dict.empty
  triggers : List Trigger := []
  suppressed : Dict Signature ℕ := Dict.empty
  recent_groups : List (Time × ℤ) := []
  last_fired : Dict Signature Time := Dict.empty

structure TypeError where
  message : String
  deriving DecidableEq

def hex2 (b : Byte) : String :=
  String.ofList [Address.hexDigit (b.toNat / 16), Address.hexDigit (b.toNat % 16)]

def formatHex2 : Option Byte → Except TypeError String
  | some b => .ok (hex2 b)
  | none => .error ⟨"unsupported format string passed to NoneType.__format__"⟩

def addressText : Option Address → String
  | some a => a.str
  | none => "None"

/-- The nearest natural number, the even one of two. -/
def roundHalfEven (q : ℚ) : ℕ :=
  let n := ⌊q⌋₊
  if q - n < 1 / 2 then n else if 1 / 2 < q - n then n + 1 else if n % 2 = 0 then n else n + 1

/-- Six significant digits of a positive number, and the exponent of the first. -/
def significant (q : ℚ) : ℕ × ℤ :=
  let e := Int.log 10 q
  let m := roundHalfEven (q / 10 ^ (e - 5))
  if m = 1000000 then (100000, e + 1) else (m, e)

def stripZeros (digits : List Char) : List Char :=
  (digits.reverse.dropWhile (fun c => c == '0')).reverse

/-- Digits with a point after the first `n`, which goes when nothing follows it. -/
def withPoint (digits : List Char) (n : ℕ) : List Char :=
  let fraction := stripZeros (digits.drop n)
  if fraction = [] then digits.take n else digits.take n ++ '.' :: fraction

/-- `{:g}` -/
def formatG (q : ℚ) : String :=
  if q = 0 then "0"
  else
    let (m, e) := significant |q|
    let digits := (toString m).toList
    let text :=
      if -4 ≤ e ∧ e < 6 then
        if 0 ≤ e then withPoint digits (e.toNat + 1)
        else withPoint ('0' :: List.replicate (-e - 1).toNat '0' ++ digits) 1
      else
        let power := (toString e.natAbs).toList
        withPoint digits 1 ++ 'e' :: (if e < 0 then '-' else '+') ::
          (if power.length < 2 then '0' :: power else power)
    (if q < 0 then "-" else "") ++ String.ofList text

example : (formatG 3, formatG (1 / 4), formatG (1 / 30000), formatG 2500000) =
    ("3", "0.25", "3.33333e-05", "2.5e+06") := by decide +kernel

/-- `group in groups`; an absent group is in none. -/
def inGroups (group : Option Byte) (groups : List ℤ) : Bool :=
  match group with
  | some g => decide ((g.toNat : ℤ) ∈ groups)
  | none => false

/-- A group that neither the network nor its devices use, as far as the network's are known. -/
def strayGroup (cfg : AllOnConfig) (group : Option Byte) : Bool :=
  match cfg.known_groups with
  | some known => !inGroups group known && !inGroups group cfg.device_groups
  | none => false

def isOnCommand : Option Byte → Bool
  | some c => decide (c ∈ onCommands)
  | none => false

/-- The group as a number, -1 when there is none. -/
def groupNumber : Option Byte → ℤ
  | some g => g.toNat
  | none => -1

def groupText : Option Byte → String
  | some g => toString g.toNat
  | none => "None"

def Packet.anyAddr (p : Packet) : Option Address := p.fromAddr.or p.toAddr

def Trigger.signature (trig : Trigger) : Signature :=
  match trig.packet with
  | some p => (trig.kind, addressText p.anyAddr, groupNumber p.group)
  | none => (trig.kind, "?", -1)

def hopsText (p : Packet) : String :=
  ", hops " ++ toString p.hopsLeft ++ "/" ++ toString p.maxHops

/-- A call of `observe`; `clock` is what the clock would read. -/
structure Burst where
  packet : Option Packet
  bits : Bits := []
  rssi_dbm : Option ℚ := none
  snr_db : Option ℚ := none
  at_ : Option Time := none
  clock : Time := 0

/-- When a burst was heard; a packet's timestamp of zero counts as none. -/
def Burst.now (b : Burst) : Time :=
  match b.at_ with
  | some t => t
  | none =>
      match b.packet.bind Packet.timestamp with
      | some t => if t = 0 then b.clock else t
      | none => b.clock

namespace AllOnWatcher

def fresh (cfg : AllOnConfig) : AllOnWatcher where
  cfg := cfg

def expire (w : AllOnWatcher) (now : Time) : AllOnWatcher :=
  let cut := now - w.cfg.window_s
  match w.history with
  | first :: _ =>
      if first.at_ < cut then
        { w with history := w.history.filter (fun h => decide (cut ≤ h.at_)) }
      else w
  | [] => w

def tally (w : AllOnWatcher) (pkt : Packet) (rssi_dbm : Option ℚ) : AllOnWatcher :=
  let who := match pkt.anyAddr with
    | some a => a.str
    | none => "unknown"
  let s := (w.suspects.get who).getD { address := who }
  let zero := pkt.isGroupBroadcast && decide (pkt.group = some allDevicesGroup)
  let stray := pkt.isGroupBroadcast && !zero && strayGroup w.cfg pkt.group
  let s := { s with
    packets := s.packets + 1
    crc_failures := s.crc_failures + if pkt.crcOk = some false then 1 else 0
    repaired := s.repaired + if pkt.corrected = 0 then 0 else 1
    group0 := s.group0 + if zero then 1 else 0
    unknown_group := s.unknown_group + if stray then 1 else 0
    rssi_sum := s.rssi_sum + rssi_dbm.getD 0
    rssi_count := s.rssi_count + if rssi_dbm.isSome then 1 else 0 }
  { w with suspects := w.suspects.set who s }

def commandText (cmd1 : Option Byte) : Except TypeError String :=
  if isOnCommand cmd1 then .ok "ON"
  else (formatHex2 cmd1).map (fun text => "cmd 0x" ++ text)

/-- The trigger that a group broadcast raises by its group. -/
def groupTriggers (cfg : AllOnConfig) (pkt : Packet) (now : Time) :
    Except TypeError (List Trigger) :=
  if pkt.group = some allDevicesGroup then do
    -- a valid CRC means a device really sent this
    let how := if pkt.crcOk = some true then "CRC valid — some device transmitted this"
      else "CRC FAILED — mangled in flight"
    let command ← commandText pkt.cmd1
    return [{
      kind := .allLinkGroup0, at_ := now, packet := some pkt
      detail := "group 0 (" ++ command ++ ") from " ++ addressText pkt.anyAddr ++ hopsText pkt ++
        ", " ++ how }]
  else if strayGroup cfg pkt.group && isOnCommand pkt.cmd1 then
    return [{
      kind := .unknownGroup, at_ := now, packet := some pkt
      detail := "On broadcast to unknown group " ++ groupText pkt.group ++ " from " ++
        addressText pkt.toAddr ++ hopsText pkt }]
  else return []

def stormTrigger (cfg : AllOnConfig) (count : ℕ) (pkt : Packet) (now : Time) : Trigger where
  kind := .storm
  at_ := now
  packet := some pkt
  detail := toString count ++ " group broadcasts in " ++ formatG cfg.storm_window_s ++ "s"

/-- The candidates of a packet, and what the watcher is left with, also when a text fails. -/
def check (w : AllOnWatcher) (pkt : Packet) (now : Time) :
    AllOnWatcher × Except TypeError (List Trigger) :=
  if pkt.isGroupBroadcast then
    let recent := (w.recent_groups ++ [(now, groupNumber pkt.group)]).filter
      (fun e => decide (now - e.1 ≤ w.cfg.storm_window_s))
    match groupTriggers w.cfg pkt now with
    | .error e => ({ w with recent_groups := recent }, .error e)
    | .ok out =>
        if w.cfg.storm_count ≤ recent.length then
          ({ w with recent_groups := [] },
            .ok (out ++ [stormTrigger w.cfg recent.length pkt now]))
        else ({ w with recent_groups := recent }, .ok out)
  else (w, .ok [])

/-- Whether this signature has not fired recently; if it has, it is counted. -/
def isFresh (w : AllOnWatcher) (trig : Trigger) (now : Time) : AllOnWatcher × Bool :=
  match w.last_fired.get trig.signature with
  | some last =>
      if now - last < w.cfg.cooldown_s then
        ({ w with suppressed := w.suppressed.bump trig.signature }, false)
      else ({ w with last_fired := w.last_fired.set trig.signature now }, true)
  | none => ({ w with last_fired := w.last_fired.set trig.signature now }, true)

def keepFresh (w : AllOnWatcher) (now : Time) : List Trigger → AllOnWatcher × List Trigger
  | [] => (w, [])
  | trig :: rest =>
      let asked := w.isFresh trig now
      let kept := keepFresh asked.1 now rest
      (kept.1, if asked.2 then trig :: kept.2 else kept.2)

def record (w : AllOnWatcher) (b : Burst) : AllOnWatcher :=
  let seen : Seen :=
    { at_ := b.now, bits := b.bits, packet := b.packet, rssi_dbm := b.rssi_dbm, snr_db := b.snr_db }
  { w with history := w.history ++ [seen] }.expire b.now

def observe (w : AllOnWatcher) (b : Burst) : AllOnWatcher × Except TypeError (List Trigger) :=
  match b.packet with
  | none => (w.record b, .ok [])
  | some pkt =>
      let checked := ((w.record b).tally pkt b.rssi_dbm).check pkt b.now
      match checked.2 with
      | .error e => (checked.1, .error e)
      | .ok candidates =>
          let kept := checked.1.keepFresh b.now candidates
          ({ kept.1 with triggers := kept.1.triggers ++ kept.2 }, .ok kept.2)

def run (w : AllOnWatcher) (bursts : List Burst) :
    AllOnWatcher × List (Except TypeError (List Trigger)) :=
  Machine.run observe w bursts

/-- What the copies of a message share: its bytes up to the CRC, which is zeroed. -/
def copyKey (p : Packet) : List Byte :=
  let data := maskHopsLeft (p.data.take (p.crcIndex + 1))
  if p.crcIndex < data.length then data.set p.crcIndex 0 else data

def copiesOf (w : AllOnWatcher) (pkt : Packet) : List Seen :=
  w.history.filter (fun h => match h.packet with
    | some p => decide (copyKey p = copyKey pkt)
    | none => false)

end AllOnWatcher

end InsteonRf
