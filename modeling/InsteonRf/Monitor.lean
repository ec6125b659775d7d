import InsteonRf.Packet
import InsteonRf.Lib.WindowGroups

/-!
# The log of received packets

Every message is repeated by the mesh with one hop less. The deduper folds the copies into
one record, which it holds until the window after the last copy has closed.
-/
namespace InsteonRf
open OrderedDict

/-- Repeats of the same packet arrive within a few tens of ms. -/
def dedupeWindowS : Time := 1 / 4

/-- The bytes before the CRC, with hops-left masked out of the flags. -/
def dedupeKey (p : Packet) : List Byte :=
  let data := if p.crcIndex < p.data.length then p.data.take p.crcIndex else p.data
  (firstByte data &&& ~~~0x0C#8) :: data.tail

/-- What is logged of a packet: its own fields, and what was seen of its repeats. -/
structure Record where
  packet : Packet
  repeats : ℕ
  hops_seen : List ℕ
  deriving DecidableEq

structure Deduper where
  window_s : Time := dedupeWindowS
  pending : Dict (List Byte) (Time × Record) := Dict.empty

namespace Deduper

/-- Fold a packet into the pending records; `clock` is the time for a packet without one. -/
def add (dd : Deduper) (p : Packet) (clock : Time) : Deduper :=
  let now := p.timestamp.getD clock
  let key := dedupeKey p
  let record := match dd.pending.get key with
    | some hit =>
        { hit.2 with
          repeats := hit.2.repeats + 1
          hops_seen := if p.hopsLeft ∈ hit.2.hops_seen then hit.2.hops_seen
            else hit.2.hops_seen ++ [p.hopsLeft] }
    | none => ⟨p, 1, [p.hopsLeft]⟩
  { dd with pending := dd.pending.set key (now, record) }

/-- Whether the window of a record last seen at `last` has closed. -/
def late (window_s last now : Time) : Bool := decide (window_s < now - last)

def popReady (dd : Deduper) (now : Option Time) (clock : Time) : Deduper × List Record :=
  let now := now.getD clock
  ({ dd with pending := dd.pending.filter (fun e => !late dd.window_s e.2.1 now) },
    (dd.pending.items.filter (fun e => late dd.window_s e.2.1 now)).map (fun e => e.2.2))

def flush (dd : Deduper) : Deduper × List Record :=
  ({ dd with pending := Dict.empty }, dd.pending.values.map Prod.snd)

inductive Op where
  | add (p : Packet) (clock : Time)
  | popReady (now : Option Time) (clock : Time)
  | flush

def step (dd : Deduper) : Op → Deduper × List Record
  | .add p clock => (dd.add p clock, [])
  | .popReady now clock => dd.popReady now clock
  | .flush => dd.flush

def Op.added : Op → List Packet
  | .add p _ => [p]
  | .popReady _ _ => []
  | .flush => []

end Deduper

/-- A packet, and what the clock reads when it is added and when the log is popped after it. -/
structure Heard where
  packet : Packet
  addClock : Time := 0
  popClock : Time := 0
  deriving DecidableEq

namespace Heard

def time (h : Heard) : Time := h.packet.timestamp.getD h.addClock
def popTime (h : Heard) : Time := h.packet.timestamp.getD h.popClock

end Heard

def dedupeLoop (dd : Deduper) : List Heard → List Record
  | [] => dd.flush.2
  | h :: packets =>
      let popped := (dd.add h.packet h.addClock).popReady h.packet.timestamp h.popClock
      popped.2 ++ dedupeLoop popped.1 packets

/-- Packets as lines of the log, with repeats folded unless that is switched off. -/
def records (packets : List Heard) (dedupe : Bool) (window_s : Time) : List (Packet ⊕ Record) :=
  if dedupe then (dedupeLoop { window_s } packets).map Sum.inr
  else packets.map (fun h => Sum.inl h.packet)

instance : Inhabited Packet := ⟨Packet.ofBytes 0 []⟩

def Record.ofGroup (g : List Packet) : Record where
  packet := g.headI
  repeats := g.length
  hops_seen := (g.map Packet.hopsLeft).eraseDups

theorem eraseDups_concat {α : Type*} [DecidableEq α] (l : List α) (a : α) :
    (l ++ [a]).eraseDups = if a ∈ l.eraseDups then l.eraseDups else l.eraseDups ++ [a] := by
  rw [List.eraseDups_append]
  by_cases h : a ∈ l
  · simp [List.removeAll, h, List.mem_eraseDups]
  · simp [List.removeAll, h, List.mem_eraseDups, List.eraseDups_cons]

theorem eraseDups_sublist {α : Type*} [DecidableEq α] (l : List α) : l.eraseDups.Sublist l := by
  induction l using List.reverseRecOn with
  | nil => simp
  | append_singleton l a ih =>
      rw [eraseDups_concat]
      split_ifs
      · exact ih.trans (List.sublist_append_left l [a])
      · exact ih.append (List.Sublist.refl [a])

/-- A copy more leaves the first packet, counts one, and adds its hops if they are new. -/
theorem ofGroup_concat {g : List Packet} (h : g ≠ []) (p : Packet) :
    Record.ofGroup (g ++ [p]) =
      { Record.ofGroup g with
        repeats := (Record.ofGroup g).repeats + 1
        hops_seen := if p.hopsLeft ∈ (Record.ofGroup g).hops_seen then (Record.ofGroup g).hops_seen
          else (Record.ofGroup g).hops_seen ++ [p.hopsLeft] } := by
  obtain ⟨q, g, rfl⟩ := List.exists_cons_of_ne_nil h
  have hhops := eraseDups_concat ((q :: g).map Packet.hopsLeft) p.hopsLeft
  simp only [Record.ofGroup, List.map_append, List.map_singleton, hhops]
  simp

section Refinement
variable {α : Type*} (pkt : α → Packet)

/-- The pending records are those of the open groups. -/
structure Deduper.Refines (dd : Deduper) (d : Dict (List Byte) (Time × List α)) : Prop where
  pending : dd.pending = d.mapValues (fun e => (e.1, Record.ofGroup (e.2.map pkt)))
  nonempty : ∀ k e, d.get k = some e → e.2 ≠ []

variable {pkt} {dd : Deduper} {d : Dict (List Byte) (Time × List α)}

namespace Deduper

theorem Refines.add (h : dd.Refines pkt d) (a : α) (clock : Time) :
    (dd.add (pkt a) clock).Refines pkt
      (WindowGroups.add (dedupeKey ∘ pkt) d ((pkt a).timestamp.getD clock) a) := by
  refine ⟨?_, ?_⟩
  · rw [Deduper.add, WindowGroups.add, Dict.mapValues_set, h.pending, Dict.get_mapValues]
    simp only [Function.comp_apply, WindowGroups.current]
    cases hk : d.get (dedupeKey (pkt a)) with
    | none => rfl
    | some e =>
        have hne : e.2.map pkt ≠ [] := by simpa using h.nonempty _ e hk
        simp only [Option.map_some, Option.getD_some, List.map_append, List.map_singleton,
          ofGroup_concat hne]
  · intro k e he
    by_cases hk : k = dedupeKey (pkt a)
    · subst hk
      rw [WindowGroups.add, Function.comp_apply, Dict.get_set_self] at he
      obtain rfl := Option.some.inj he
      simp
    · rw [WindowGroups.add, Function.comp_apply, Dict.get_set_of_ne _ hk] at he
      exact h.nonempty k e he

theorem Refines.popReady (h : dd.Refines pkt d) (now : Option Time) (clock : Time) :
    let popped := WindowGroups.step (dedupeKey ∘ pkt) (late dd.window_s) d (.pop (now.getD clock))
    (dd.popReady now clock).1.Refines pkt popped.1 ∧
      (dd.popReady now clock).2 = popped.2.map (fun g => Record.ofGroup (g.map pkt)) := by
  refine ⟨⟨?_, ?_⟩, ?_⟩
  · simp only [Deduper.popReady, WindowGroups.step, h.pending]
    exact (Dict.mapValues_filter _ d
      (fun e : List Byte × Time × Record => !late dd.window_s e.2.1 (now.getD clock))).symm
  · intro k e he
    exact h.nonempty k e (Dict.get_filter.mp he).1
  · simp only [Deduper.popReady, WindowGroups.step, h.pending, Dict.mapValues, List.filter_map,
      List.map_map, Function.comp_def]

theorem Refines.flush (h : dd.Refines pkt d) :
    dd.flush.1.Refines pkt (Dict.empty : Dict (List Byte) (Time × List α)) ∧
      dd.flush.2 = (WindowGroups.groups d).map (fun g => Record.ofGroup (g.map pkt)) := by
  refine ⟨⟨rfl, ?_⟩, ?_⟩
  · intro k e he
    cases he
  · simp only [Deduper.flush, WindowGroups.groups, h.pending, Dict.mapValues, Dict.values,
      List.map_map, Function.comp_def]

end Deduper

end Refinement

end InsteonRf
