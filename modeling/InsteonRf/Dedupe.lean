import InsteonRf.Monitor

/-!
# Which packets a record folds

The deduper's records are those of groups of packets. Every packet is in one group, and a
group has a gap longer than the window where no other packet came in time to close it.
-/
namespace InsteonRf
open OrderedDict

namespace Deduper

def Op.toGroups : Op → WindowGroups.Op Packet Time
  | .add p clock => .add (p.timestamp.getD clock) p
  | .popReady now clock => .pop (now.getD clock)
  | .flush => .flush

theorem added_toGroups (op : Op) : op.toGroups.added = op.added := by
  cases op <;> rfl

/-- One operation on the records is one operation on their groups. -/
theorem step_refines {dd : Deduper} {d : Dict (List Byte) (Time × List Packet)}
    (h : dd.Refines id d) (op : Op) :
    (dd.step op).1.window_s = dd.window_s ∧
      (dd.step op).1.Refines id
        (WindowGroups.step dedupeKey (late dd.window_s) d op.toGroups).1 ∧
      (dd.step op).2 =
        (WindowGroups.step dedupeKey (late dd.window_s) d op.toGroups).2.map Record.ofGroup := by
  cases op with
  | add p clock => exact ⟨rfl, h.add p clock, rfl⟩
  | popReady now clock =>
      obtain ⟨hstate, hout⟩ := h.popReady now clock
      simp only [List.map_id] at hout
      exact ⟨rfl, hstate, hout⟩
  | flush =>
      obtain ⟨hstate, hout⟩ := h.flush
      simp only [List.map_id] at hout
      exact ⟨rfl, hstate, hout⟩

theorem run_refines {dd : Deduper} {d : Dict (List Byte) (Time × List Packet)}
    (h : dd.Refines id d) (ops : List Op) :
    let groups := Machine.run (WindowGroups.step dedupeKey (late dd.window_s)) d (ops.map Op.toGroups)
    (Machine.run step dd ops).1.Refines id groups.1 ∧
      (Machine.run step dd ops).2.flatten = groups.2.flatten.map Record.ofGroup := by
  induction ops generalizing dd d with
  | nil => exact ⟨h, rfl⟩
  | cons op ops ih =>
      obtain ⟨hwindow, hstate, hout⟩ := step_refines h op
      obtain ⟨hlast, hrest⟩ := ih hstate
      rw [hwindow] at hlast hrest
      refine ⟨hlast, ?_⟩
      simp only [Machine.run_cons, List.map_cons, List.flatten_cons, List.map_append, hout, hrest]

theorem refines_empty (window_s : Time) :
    ({ window_s } : Deduper).Refines id (Dict.empty : Dict (List Byte) (Time × List Packet)) := by
  refine ⟨rfl, ?_⟩
  intro k e he
  cases he

structure Folds (r : Record) (g : List Packet) : Prop where
  first : g.head? = some r.packet
  repeats : r.repeats = g.length
  hops : r.hops_seen = (g.map Packet.hopsLeft).eraseDups
  key : ∀ p ∈ g, dedupeKey p = dedupeKey r.packet

theorem folds_ofGroup {g : List Packet} (hne : g ≠ [])
    (halike : ∀ p ∈ g, ∀ q ∈ g, dedupeKey p = dedupeKey q) : Folds (Record.ofGroup g) g := by
  obtain ⟨p, g, rfl⟩ := List.exists_cons_of_ne_nil hne
  exact ⟨rfl, rfl, rfl, fun q hq => halike q hq p List.mem_cons_self⟩

theorem Folds.length_hops {r : Record} {g : List Packet} (h : Folds r g) :
    1 ≤ r.hops_seen.length ∧ r.hops_seen.length ≤ r.repeats := by
  rw [h.hops, h.repeats]
  constructor
  · have hmem : r.packet.hopsLeft ∈ (g.map Packet.hopsLeft).eraseDups :=
      List.mem_eraseDups.mpr (List.mem_map_of_mem (List.mem_of_head? h.first))
    exact List.length_pos_of_mem hmem
  · rw [← List.length_map (f := Packet.hopsLeft)]
    exact (eraseDups_sublist _).length_le

theorem pending_keys {dd : Deduper} {d : Dict (List Byte) (Time × List Packet)}
    (h : dd.Refines id d) (hkeyed : ∀ k e, d.get k = some e → ∀ p ∈ e.2, dedupeKey p = k) :
    (dd.pending.values.map Prod.snd).map (fun r => dedupeKey r.packet) = d.keys := by
  rw [h.pending, Dict.values, Dict.mapValues, List.map_map, List.map_map, List.map_map, Dict.keys]
  apply List.map_congr_left
  intro e he
  have hget := Dict.get_eq_some_iff.mpr he
  obtain ⟨p, g, hg⟩ := List.exists_cons_of_ne_nil (h.nonempty e.1 e.2 hget)
  simp only [Function.comp_apply, List.map_id, hg, Record.ofGroup, List.headI_cons]
  exact hkeyed e.1 e.2 hget p (by rw [hg]; exact List.mem_cons_self)

/-- Whatever is added and popped when, each packet is counted in one record, handed over or
pending, and no key has two records pending. -/
theorem run_counted (window_s : Time) (ops : List Op) :
    let r := Machine.run step ({ window_s } : Deduper) ops
    let pending := r.1.pending.values.map Prod.snd
    (∃ groups : List (List Packet), List.Forall₂ Folds (r.2.flatten ++ pending) groups ∧
        groups.flatten.Perm (ops.flatMap Op.added) ∧
        ∀ g ∈ groups, g.Sublist (ops.flatMap Op.added)) ∧
      ((r.2.flatten ++ pending).map Record.repeats).sum = (ops.flatMap Op.added).length ∧
      (pending.map (fun r => dedupeKey r.packet)).Nodup ∧
      ∀ record ∈ r.2.flatten ++ pending,
        1 ≤ record.hops_seen.length ∧ record.hops_seen.length ≤ record.repeats := by
  intro r pending
  obtain ⟨hstate, hout⟩ := run_refines (refines_empty window_s) ops
  have hadded : (ops.map Op.toGroups).flatMap WindowGroups.Op.added = ops.flatMap Op.added := by
    rw [List.flatMap_map]
    exact List.flatMap_congr fun op _ => added_toGroups op
  have haccounted := @WindowGroups.accounted_run _ _ _ _ dedupeKey (late window_s) _ _ _
    WindowGroups.accounted_empty (ops.map Op.toGroups)
  rw [List.nil_append, List.nil_append, hadded] at haccounted
  set groups := Machine.run (WindowGroups.step dedupeKey (late window_s))
    (Dict.empty : Dict (List Byte) (Time × List Packet)) (ops.map Op.toGroups)
  have hpending : pending = (WindowGroups.groups groups.1).map Record.ofGroup := by
    simp only [pending, r, hstate.pending, WindowGroups.groups, Dict.values, Dict.mapValues,
      List.map_map, List.map_id, Function.comp_def]
  have hrecords : r.2.flatten ++ pending =
      (groups.2.flatten ++ WindowGroups.groups groups.1).map Record.ofGroup := by
    rw [List.map_append, hpending]
    exact congrArg (· ++ _) hout
  have hfolds : List.Forall₂ Folds (r.2.flatten ++ pending)
      (groups.2.flatten ++ WindowGroups.groups groups.1) := by
    rw [hrecords, List.forall₂_map_left_iff, List.forall₂_same]
    intro g hg
    exact folds_ofGroup (haccounted.nonempty g hg) (haccounted.alike g hg)
  refine ⟨⟨_, hfolds, haccounted.perm, haccounted.inOrder⟩, ?_, ?_, ?_⟩
  · rw [hrecords, List.map_map, ← haccounted.perm.length_eq, List.length_flatten]
    congr 1
  · rw [pending_keys hstate haccounted.keyed]
    exact groups.1.nodup
  · intro record hrecord
    rw [hrecords] at hrecord
    obtain ⟨g, hg, rfl⟩ := List.mem_map.mp hrecord
    exact (folds_ofGroup (haccounted.nonempty g hg) (haccounted.alike g hg)).length_hops

end Deduper

/-- The packets that each record of the log folds, in the order of the records. -/
def folds (window_s : Time) (packets : List Heard) : List (List Heard) :=
  WindowGroups.all (dedupeKey ∘ Heard.packet) (Deduper.late window_s) Heard.time Heard.popTime packets

theorem dedupeLoop_eq {dd : Deduper} {d : Dict (List Byte) (Time × List Heard)}
    (h : dd.Refines Heard.packet d) (packets : List Heard) :
    let r := Machine.run (WindowGroups.step (dedupeKey ∘ Heard.packet) (Deduper.late dd.window_s)) d
      (packets.flatMap (WindowGroups.feed Heard.time Heard.popTime))
    dedupeLoop dd packets = (r.2.flatten ++ WindowGroups.groups r.1).map
      (fun g => Record.ofGroup (g.map Heard.packet)) := by
  induction packets generalizing dd d with
  | nil => exact h.flush.2
  | cons p packets ih =>
      obtain ⟨hstate, hout⟩ := (h.add p p.addClock).popReady p.packet.timestamp p.popClock
      have hrest := ih hstate
      simp only [dedupeLoop, hout, hrest, WindowGroups.feed, List.flatMap_cons, List.cons_append,
        List.nil_append, Machine.run_cons, List.flatten_cons, List.map_append, List.append_assoc]
      rfl

/-- The log has one record for each group. -/
theorem records_eq_folds (packets : List Heard) (window_s : Time) :
    records packets true window_s =
      (folds window_s packets).map (fun g => Sum.inr (Record.ofGroup (g.map Heard.packet))) := by
  have hfresh : ({ window_s } : Deduper).Refines Heard.packet
      (Dict.empty : Dict (List Byte) (Time × List Heard)) := by
    refine ⟨rfl, ?_⟩
    intro k e he
    cases he
  rw [records, if_pos rfl, dedupeLoop_eq hfresh, List.map_map]
  rfl

/-- A gap longer than the window is folded exactly where nothing that was heard from the first
sighting on, up to the second, was late enough to close its record. -/
theorem records_window_iff (window_s : Time) (packets : List Heard) :
    (∀ g ∈ folds window_s packets, g.IsChain (fun a b => b.time - a.time ≤ window_s)) ↔
      ∀ before a between b after, packets = before ++ a :: (between ++ b :: after) →
        dedupeKey a.packet = dedupeKey b.packet →
        (∀ c ∈ between, dedupeKey c.packet ≠ dedupeKey b.packet) →
        window_s < b.time - a.time → ∃ c ∈ a :: between, window_s < c.popTime - a.time := by
  rw [folds, WindowGroups.isChain_all_iff]
  simp only [Deduper.late, decide_eq_true_iff, ← not_lt, Function.comp_apply]
  constructor
  · intro h before a between b after hsplit hkey hbetween hgap
    exact (h before a between b after hsplit hkey hbetween).resolve_left (not_not.mpr hgap)
  · intro h before a between b after hsplit hkey hbetween
    by_cases hgap : window_s < b.time - a.time
    · exact .inr (h before a between b after hsplit hkey hbetween hgap)
    · exact .inl hgap

/-- A lamp is switched on, and ten seconds later again, with nothing heard between. -/
def quietStream : List Heard :=
  let on := Packet.ofBytes 0x0F#8 [0x80#8, 0x25#8, 0x13#8, 0xE5#8, 0x3F#8, 0x16#8, 0x11#8, 0xFF#8]
  [⟨{ on with timestamp := some 0 }, 0, 0⟩, ⟨{ on with timestamp := some 10 }, 10, 10⟩]

/-- Both are logged as one message that was repeated by the mesh. -/
theorem quietStream_folded :
    (records quietStream true dedupeWindowS).map (Sum.elim (fun _ => 0) Record.repeats) = [2] ∧
      ¬ ∀ window_s packets, (∀ p ∈ packets, p.packet.timestamp.isSome = true) →
        packets.Pairwise (fun a b : Heard => a.time ≤ b.time) →
        ∀ g ∈ folds window_s packets, g.IsChain (fun a b => b.time - a.time ≤ window_s) := by
  refine ⟨by decide +kernel, ?_⟩
  intro hall
  have hfolds : folds dedupeWindowS quietStream = [quietStream] := by decide +kernel
  have hchain := hall dedupeWindowS quietStream (by decide +kernel) (by decide +kernel) quietStream
    (by rw [hfolds]; exact List.mem_singleton_self _)
  exact absurd hchain (by decide +kernel)

end InsteonRf
