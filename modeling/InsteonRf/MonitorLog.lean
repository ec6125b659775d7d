import InsteonRf.AllOnAlarms
import InsteonRf.MonitorService

/-!
# What the receiver logs

Whatever the order in which the two threads and the shutdown take their steps, the packets found
are those of the blocks decoded one after another by one tracker, every one of them is logged, in
a pending record or left behind by an exception, and a receiver that was shut down in time leaves
nothing behind.
-/
namespace InsteonRf
open OrderedDict Recover

namespace Recover

end Recover

namespace MonitorService

section
variable (a : Args)

def decodeOne (t : CommandTracker) (b : Block) : CommandTracker × List Packet :=
  match decodeBlock a t b (fun _ => 0) with
  | .error _ => (t, [])
  | .ok (packets, tracker) => (tracker.getD t, packets.map (annotate b))

def packetsOf (blocks : List Block) : List (List Packet) := (Machine.run (decodeOne a) {} blocks).2

end

section
variable {a : Args} {s s' : State} {os : List Shown} {o : Shown}

/-- What the packets of the blocks taken so far came to. -/
structure Decoded (a : Args) (s : State) (os : List Shown) : Prop where
  tracker : s.tracker = (Machine.run (decodeOne a) {} (decoded os)).1
  found : found os = (packetsOf a (decoded os)).flatten
  inOrder : (handled os ++ s.todo).Sublist (MonitorService.found os)
  kept : (MonitorService.found os).Perm (handled os ++ s.todo ++ spoiled os)
  blocks : (decoded os).Sublist (taken os)
  counted : s.capture_seq = if a.mesh_capture.isSome then (taken os).length else 0
  numbers : (captures os).Sublist ((taken os).zipIdx 1)
  unpublished : a.mesh_capture = none → captures os = []

/-- A step that takes no block and logs none of the packets in hand. -/
structure LeavesPackets (s s' : State) (o : Shown) : Prop where
  tracker : s'.tracker = s.tracker
  todo : s'.todo = s.todo
  capture_seq : s'.capture_seq = s.capture_seq
  taken : o.taken = []
  decoded : o.decoded = []
  found : o.found = []
  handled : o.handled = []
  spoiled : o.spoiled = []
  captures : o.captures = []

theorem Decoded.leaves (hs : Decoded a s os) (h : LeavesPackets s s' o) :
    Decoded a s' (os ++ [o]) := by
  have htaken : taken (os ++ [o]) = taken os := by simp [taken, h.taken]
  have hdecoded : decoded (os ++ [o]) = decoded os := by simp [decoded, h.decoded]
  have hfound : MonitorService.found (os ++ [o]) = MonitorService.found os := by
    simp [MonitorService.found, h.found]
  have hhandled : handled (os ++ [o]) = handled os := by simp [handled, h.handled]
  have hspoiled : spoiled (os ++ [o]) = spoiled os := by simp [spoiled, h.spoiled]
  have hcaptures : captures (os ++ [o]) = captures os := by simp [captures, h.captures]
  constructor
  · rw [h.tracker, hdecoded]
    exact hs.tracker
  · rw [hfound, hdecoded]
    exact hs.found
  · rw [hhandled, h.todo, hfound]
    exact hs.inOrder
  · rw [hhandled, h.todo, hfound, hspoiled]
    exact hs.kept
  · rw [hdecoded, htaken]
    exact hs.blocks
  · rw [h.capture_seq, htaken]
    exact hs.counted
  · rw [hcaptures, htaken]
    exact hs.numbers
  · rw [hcaptures]
    exact hs.unpublished

/-- A step of the receive loop, which touches the queue only. -/
structure LeavesThread (s s' : State) (o : Shown) : Prop where
  packets : LeavesPackets s s' o
  worker : s'.worker = s.worker
  dd : s'.dd = s.dd
  watcher : s'.watcher = s.watcher
  emitted : o.emitted = []
  phase : s'.phase = .closed true → s.phase = .closed true

theorem counted_next (hs : Decoded a s os) :
    (s.capture_seq + if a.mesh_capture.isSome then 1 else 0) =
      if a.mesh_capture.isSome then (taken os).length + 1 else 0 := by
  have hcounted := hs.counted
  split_ifs at hcounted ⊢ <;> omega

/-- A capture that goes out is numbered by the block's place among those taken. -/
theorem numbers_next (hs : Decoded a s os) {b : Block} {numbers : List (Block × ℕ)}
    (h : numbers = [] ∨ numbers = if a.mesh_capture.isSome
      then [(b, s.capture_seq + if a.mesh_capture.isSome then 1 else 0)] else []) :
    (captures os ++ numbers).Sublist ((taken os ++ [b]).zipIdx 1) ∧
      (a.mesh_capture = none → captures os ++ numbers = []) := by
  have hcounted := counted_next hs
  have hconcat : (taken os ++ [b]).zipIdx 1 = (taken os).zipIdx 1 ++ [(b, (taken os).length + 1)] := by
    rw [List.zipIdx_append, Nat.add_comm 1]
    rfl
  rw [hconcat]
  cases hmesh : a.mesh_capture with
  | none =>
      have hnone : numbers = [] := by simpa [hmesh] using h
      rw [hnone, List.append_nil]
      exact ⟨hs.numbers.trans (List.sublist_append_left _ _), fun _ => hs.unpublished hmesh⟩
  | some receiver =>
      refine ⟨?_, fun hnone => by cases hnone⟩
      rw [hcounted] at h
      simp only [hmesh, Option.isSome_some, if_true] at h
      obtain rfl | rfl := h
      · rw [List.append_nil]
        exact hs.numbers.trans (List.sublist_append_left _ _)
      · exact hs.numbers.append (List.Sublist.refl _)

theorem Decoded.take (hs : Decoded a s os) (hwaiting : s.todo = []) {b : Block}
    (htaken : o.taken = [b]) (hblocks : o.decoded.Sublist [b])
    (htracker : s'.tracker = (Machine.run (decodeOne a) s.tracker o.decoded).1)
    (hfound : o.found = (Machine.run (decodeOne a) s.tracker o.decoded).2.flatten)
    (htodo : s'.todo = o.found) (hhandled : o.handled = []) (hspoiled : o.spoiled = [])
    (hseq : s'.capture_seq = s.capture_seq + if a.mesh_capture.isSome then 1 else 0)
    (hnumbers : o.captures = [] ∨ o.captures = if a.mesh_capture.isSome
      then [(b, s.capture_seq + if a.mesh_capture.isSome then 1 else 0)] else []) :
    Decoded a s' (os ++ [o]) := by
  have htaken' : taken (os ++ [o]) = taken os ++ [b] := by simp [taken, htaken]
  have hdecoded' : decoded (os ++ [o]) = decoded os ++ o.decoded := by simp [decoded]
  have hfound' : MonitorService.found (os ++ [o]) = MonitorService.found os ++ o.found := by
    simp [MonitorService.found]
  have hhandled' : handled (os ++ [o]) = handled os := by simp [handled, hhandled]
  have hspoiled' : spoiled (os ++ [o]) = spoiled os := by simp [spoiled, hspoiled]
  have hcaptures' : captures (os ++ [o]) = captures os ++ o.captures := by simp [captures]
  have hin := hs.inOrder
  have hkept := hs.kept
  rw [hwaiting, List.append_nil] at hin hkept
  constructor
  · rw [hdecoded', Machine.run_append, htracker, hs.tracker]
  · rw [hfound', hdecoded', packetsOf, Machine.run_append, List.flatten_append, hfound, hs.tracker,
      hs.found]
    rfl
  · rw [hhandled', hfound', htodo]
    exact hin.append (List.Sublist.refl _)
  · rw [hhandled', hfound', hspoiled', htodo]
    refine (hkept.append_right o.found).trans ?_
    rw [List.append_assoc, List.append_assoc]
    exact List.perm_append_comm.append_left _
  · rw [hdecoded', htaken']
    exact hs.blocks.append hblocks
  · rw [hseq, htaken', List.length_append]
    exact counted_next hs
  · rw [hcaptures', htaken']
    exact (numbers_next hs hnumbers).1
  · rw [hcaptures']
    exact (numbers_next hs hnumbers).2

structure Logged (a : Args) (s : State) (os : List Shown) : Prop where
  alone : a.dedupe = none →
    s.dd = none ∧ (emitted os).map Prod.fst = (handled os).map Sum.inl
  folded : ∀ window_s, a.dedupe = some window_s → ∃ ops : List Deduper.Op,
    s.dd = some (Machine.run Deduper.step { window_s } ops).1 ∧
      (emitted os).map Prod.fst =
        (Machine.run Deduper.step { window_s } ops).2.flatten.map Sum.inr ∧
      handled os = ops.flatMap Deduper.Op.added

theorem Logged.leaves (hs : Logged a s os) (hdd : s'.dd = s.dd) (hhandled : o.handled = [])
    (hemitted : o.emitted = []) : Logged a s' (os ++ [o]) := by
  have hhandled' : handled (os ++ [o]) = handled os := by simp [handled, hhandled]
  have hemitted' : emitted (os ++ [o]) = emitted os := by simp [emitted, hemitted]
  constructor
  · rw [hdd, hhandled', hemitted']
    exact hs.alone
  · rw [hdd, hhandled', hemitted']
    exact hs.folded

theorem Logged.loop (hs : Logged a s os) (h : LeavesThread s s' o) : Logged a s' (os ++ [o]) :=
  hs.leaves h.dd h.packets.handled h.emitted

/-- One operation of the deduper, whose records are logged. -/
theorem Logged.fold (hs : Logged a s os) {dd : Deduper} (hdd : s.dd = some dd) (op : Deduper.Op)
    (hdd' : s'.dd = some (dd.step op).1) (hhandled : o.handled = op.added)
    (hemitted : o.emitted.map Prod.fst = (dd.step op).2.map Sum.inr) :
    Logged a s' (os ++ [o]) := by
  constructor
  · intro hnone
    rw [(hs.alone hnone).1] at hdd
    cases hdd
  · intro window_s hsome
    obtain ⟨ops, hstate, hentries, hadded⟩ := hs.folded window_s hsome
    obtain rfl : dd = _ := Option.some.inj (hdd.symm.trans hstate)
    refine ⟨ops ++ [op], ?_, ?_, ?_⟩
    · rw [hdd', Machine.run_append]
      rfl
    · rw [emitted, List.flatMap_append, List.map_append, ← emitted, hentries, Machine.run_append,
        List.flatten_append, List.map_append]
      simp [hemitted]
    · rw [handled, List.flatMap_append, ← handled, hadded, List.flatMap_append]
      simp [hhandled]

inductive Counts : Entry → List Packet → Prop where
  | packet (p : Packet) : Counts (.inl p) [p]
  | record {r : Record} {g : List Packet} (h : Deduper.Folds r g) : Counts (.inr r) g

/-- Entries that stand for these packets, each of them in one entry. -/
structure Tallied (entries : List Entry) (packets : List Packet) : Prop where
  groups : ∃ groups : List (List Packet), List.Forall₂ Counts entries groups ∧
    groups.flatten.Perm packets ∧ ∀ g ∈ groups, g.Sublist packets
  total : (entries.map Entry.repeats).sum = packets.length

theorem tallied_packets (packets : List Packet) : Tallied (packets.map Sum.inl) packets where
  groups := by
    refine ⟨packets.map (fun p => [p]), ?_, ?_, ?_⟩
    · rw [List.forall₂_map_left_iff, List.forall₂_map_right_iff, List.forall₂_same]
      exact fun p _ => .packet p
    · rw [← List.flatMap_def, List.flatMap_singleton']
    · intro g hg
      obtain ⟨p, hp, rfl⟩ := List.mem_map.mp hg
      exact List.singleton_sublist.mpr hp
  total := by simp [Entry.repeats, Function.comp_def]

theorem tallied_records (window_s : Time) (ops : List Deduper.Op) :
    let r := Machine.run Deduper.step ({ window_s } : Deduper) ops
    Tallied ((r.2.flatten ++ r.1.pending.values.map Prod.snd).map Sum.inr)
      (ops.flatMap Deduper.Op.added) := by
  obtain ⟨⟨groups, hfolds, hperm, hsub⟩, htotal, _⟩ := Deduper.run_counted window_s ops
  refine ⟨⟨groups, ?_, hperm, hsub⟩, ?_⟩
  · rw [List.forall₂_map_left_iff]
    exact hfolds.imp fun _ _ h => .record h
  · rw [List.map_map]
    exact htotal

/-- What is logged and what is pending stands for the packets handled. -/
theorem Logged.tallied (hs : Logged a s os) :
    Tallied ((emitted os).map Prod.fst ++ s.pending.map Sum.inr) (handled os) := by
  unfold State.pending
  cases hdedupe : a.dedupe with
  | none =>
      obtain ⟨hdd, hentries⟩ := hs.alone hdedupe
      rw [hdd, hentries]
      simpa using tallied_packets (handled os)
  | some window_s =>
      obtain ⟨ops, hdd, hentries, hadded⟩ := hs.folded window_s hdedupe
      rw [hdd, hentries, hadded]
      change Tallied (_ ++ ((Machine.run Deduper.step { window_s } ops).1.pending.values.map
        Prod.snd).map Sum.inr) _
      rw [← List.map_append]
      exact tallied_records window_s ops

/-- How the decode thread can end, and what a shutdown that waited for it leaves. -/
structure Ended (s : State) (os : List Shown) : Prop where
  dead : s.worker = .dead → ∃ e ∈ emitted os, e.2 = false
  closed : s.phase = .closed true → (s.worker = .returned ∨ s.worker = .dead) ∧ s.pending = []

theorem Ended.live (hs : Ended s os) (hlive : s.worker ≠ .returned ∧ s.worker ≠ .dead)
    (hphase : s'.phase = .closed true → s.phase = .closed true)
    (hdead : s'.worker = .dead → ∃ e ∈ o.emitted, e.2 = false) : Ended s' (os ++ [o]) := by
  constructor
  · intro h
    obtain ⟨e, he, hfalse⟩ := hdead h
    exact ⟨e, List.mem_flatMap.mpr ⟨o, List.mem_append_right os List.mem_cons_self, he⟩, hfalse⟩
  · intro h
    obtain ⟨hended, _⟩ := hs.closed (hphase h)
    exact (hended.elim hlive.1 hlive.2).elim

theorem Ended.leaves (hs : Ended s os) (hworker : s'.worker = s.worker) (hdd : s'.dd = s.dd)
    (hphase : s'.phase = .closed true → s.phase = .closed true) : Ended s' (os ++ [o]) := by
  constructor
  · rw [hworker]
    intro h
    obtain ⟨e, he, hfalse⟩ := hs.dead h
    obtain ⟨o', ho', hin⟩ := List.mem_flatMap.mp he
    exact ⟨e, List.mem_flatMap.mpr ⟨o', List.mem_append_left [o] ho', hin⟩, hfalse⟩
  · intro h
    obtain ⟨hended, hpending⟩ := hs.closed (hphase h)
    rw [hworker]
    refine ⟨hended, ?_⟩
    unfold State.pending at hpending ⊢
    rwa [hdd]

theorem Ended.loop (hs : Ended s os) (h : LeavesThread s s' o) : Ended s' (os ++ [o]) :=
  hs.leaves h.worker h.dd h.phase

theorem Ended.todo (hs : Ended s os) (hclosed : s.phase = .closed true) : s.todo = [] := by
  unfold State.todo
  obtain hreturned | hdead := (hs.closed hclosed).1
  · rw [hreturned]
  · rw [hdead]

end

end MonitorService

end InsteonRf
