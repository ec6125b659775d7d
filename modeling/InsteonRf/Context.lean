import InsteonRf.Packet
import InsteonRf.Lib.Machine
import InsteonRf.Lib.OrderedDict

/-!
# Replies and their queries

An acknowledgement is always a standard message, whatever the query was. The tracker
remembers recent queries and marks each reply with the kind of the one it answers.
-/
namespace InsteonRf
open OrderedDict

structure CommandTracker where
  window_s : Time := 5
  /-- Sender, target and command of a query, with its time and kind. -/
  queries : Dict (String × String × Byte) (Time × Bool) := Dict.empty
  resolved : ℕ := 0
  unresolved : ℕ := 0

namespace CommandTracker

def expire (t : CommandTracker) (now : Time) : CommandTracker :=
  { t with queries := t.queries.filter (fun e => !decide (t.window_s < now - e.2.1)) }

/-- Mark a reply with the kind of its query; the addresses come back swapped. -/
def annotate (t : CommandTracker) (pkt : Packet) : CommandTracker × Packet :=
  match pkt.toAddr, pkt.fromAddr, pkt.cmd1 with
  | some target, some sender, some cmd1 =>
      match t.queries.get (target.str, sender.str, cmd1) with
      | none => ({ t with unresolved := t.unresolved + 1 }, pkt)
      | some hit =>
          ({ t with resolved := t.resolved + 1 }, { pkt with ack_of_extended := some hit.2 })
  | _, _, _ => (t, pkt)

/-- Record a query, or annotate a reply; `clock` is the time for a packet without one. -/
def observe (t : CommandTracker) (pkt : Packet) (clock : Time) : CommandTracker × Packet :=
  let now := pkt.timestamp.getD clock
  let t := t.expire now
  match pkt.cmd1, pkt.toAddr with
  | some cmd1, some target =>
      if pkt.ack then t.annotate pkt
      else match pkt.fromAddr with
        | some sender =>
            ({ t with queries := t.queries.set (sender.str, target.str, cmd1) (now, pkt.extended) },
              pkt)
        | none => (t, pkt)
  | _, _ => (t, pkt)

def run (t : CommandTracker) (packets : List (Packet × Time)) : CommandTracker × List Packet :=
  Machine.run (fun t (e : Packet × Time) => t.observe e.1 e.2) t packets

def answer (t : CommandTracker) (pkt : Packet) : Option (Time × Bool) → CommandTracker × Packet
  | none => ({ t with unresolved := t.unresolved + 1 }, pkt)
  | some hit => ({ t with resolved := t.resolved + 1 }, { pkt with ack_of_extended := some hit.2 })

theorem observe_reply {pkt : Packet} (hack : pkt.ack = true) {target sender : Address} {cmd1 : Byte}
    (hto : pkt.toAddr = some target) (hfrom : pkt.fromAddr = some sender)
    (hcmd : pkt.cmd1 = some cmd1) (t : CommandTracker) (clock : Time) :
    t.observe pkt clock = (t.expire (pkt.timestamp.getD clock)).answer pkt
      ((t.expire (pkt.timestamp.getD clock)).queries.get (target.str, sender.str, cmd1)) := by
  simp only [observe, annotate, hcmd, hto, hfrom, hack, if_true]
  cases (t.expire (pkt.timestamp.getD clock)).queries.get (target.str, sender.str, cmd1) <;> rfl

/-- Nothing but the mark on a reply is written. -/
theorem observe_packet (t : CommandTracker) (pkt : Packet) (clock : Time) :
    ∃ mark, (t.observe pkt clock).2 = { pkt with ack_of_extended := mark } := by
  have hannotate : ∀ u : CommandTracker,
      ∃ mark, (u.annotate pkt).2 = { pkt with ack_of_extended := mark } := by
    intro u
    unfold annotate
    split
    · split
      · exact ⟨_, rfl⟩
      · exact ⟨_, rfl⟩
    · exact ⟨_, rfl⟩
  unfold observe
  simp only
  split
  · split_ifs
    · exact hannotate _
    · split
      · exact ⟨_, rfl⟩
      · exact ⟨_, rfl⟩
  · exact ⟨_, rfl⟩

end CommandTracker

end InsteonRf
