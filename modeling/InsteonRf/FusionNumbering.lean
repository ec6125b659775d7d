import InsteonRf.FusionInvariants

/-!
# Numbering retransmissions

Events of one key are numbered as they are built: first the buckets without a verified
copy, then the others. The list handed over is sorted afterwards, by when an event was
first on the air.
-/
namespace InsteonRf
open OrderedDict Selection

def Bucket.eventKey (cfg : FusionConfig) (b : Bucket) : Key :=
  let event := b.build cfg.allow_combine
  if event.combined then messageKey event.packet else b.key

namespace Fusion

/-- Of the events of one key an earlier one in the list has a lower number. -/
def NumberedInOrder (out : List Emission) : Prop :=
  out.Pairwise (fun e e' => e.event.key = e'.event.key → e.event.repeat_index < e'.event.repeat_index)

instance (out : List Emission) : Decidable (NumberedInOrder out) :=
  inferInstanceAs (Decidable (out.Pairwise _))

/-- Of the buckets of one key an earlier one in the list has not opened later. -/
def OpenedInOrder (cfg : FusionConfig) (bs : List Bucket) : Prop :=
  bs.Pairwise (fun b c => b.eventKey cfg = c.eventKey cfg → b.opened ≤ c.opened)

/-- The events so far are numbered in order, and the memory of closed keys holds the
last number of each. -/
structure Numbering (f : Fusion) (out : List Emission) : Prop where
  increasing : NumberedInOrder out
  latest : ∀ e ∈ out, ∃ seen, f.closed.get e.event.key = some seen ∧
    e.event.repeat_index ≤ seen.repeat_index

variable {f : Fusion} {out : List Emission} {b : Bucket} {now : Time}

theorem finish_closed (f : Fusion) (b : Bucket) (now : Time) (event : FusedEvent) :
    ∃ seen, (f.finish b now event).1.closed =
        f.closed.set (f.finish b now event).2.event.key seen ∧
      seen.repeat_index = (f.finish b now event).2.event.repeat_index ∧
      ∀ old, f.closed.get (f.finish b now event).2.event.key = some old →
        seen.repeat_index = old.repeat_index + 1 := by
  refine ⟨_, rfl, rfl, ?_⟩
  intro old hold
  change f.closed.get (if event.combined then { event with key := messageKey event.packet }
    else event).key = some old at hold
  simp only [hold]

theorem Numbering.finish (h : Numbering f out) (b : Bucket) (now : Time) (event : FusedEvent) :
    Numbering (f.finish b now event).1 (out ++ [(f.finish b now event).2]) := by
  obtain ⟨seen, hclosed, hindex, hnext⟩ := finish_closed f b now event
  generalize (f.finish b now event).2 = new at hclosed hindex hnext ⊢
  constructor
  · refine List.pairwise_append.mpr ⟨h.increasing, List.pairwise_singleton _ _, ?_⟩
    intro e he e' he' hkey
    obtain rfl := List.mem_singleton.mp he'
    obtain ⟨old, hold, hle⟩ := h.latest e he
    rw [hkey] at hold
    have := hnext old hold
    omega
  · intro e he
    rw [hclosed]
    by_cases hkey : e.event.key = new.event.key
    · rw [hkey, Dict.get_set_self]
      refine ⟨seen, rfl, ?_⟩
      rcases List.mem_append.mp he with hmem | hnew
      · obtain ⟨old, hold, hle⟩ := h.latest e hmem
        rw [hkey] at hold
        have := hnext old hold
        omega
      · obtain rfl := List.mem_singleton.mp hnew
        exact hindex.ge
    · rw [Dict.get_set_of_ne _ hkey]
      rcases List.mem_append.mp he with hmem | hnew
      · exact h.latest e hmem
      · exact absurd (congrArg (fun e => e.event.key) (List.mem_singleton.mp hnew)) hkey

theorem countLate_foldl_closed (ss : List Sighting) (f : Fusion) :
    (ss.foldl countLate f).closed = f.closed := by
  induction ss generalizing f with
  | nil => rfl
  | cons s ss ih => exact ih (f.countLate s)

/-- The loop either closes no key, or builds one event. -/
theorem Numbering.emitDamaged {st : EmitState} (h : Numbering st.1 st.2.2) (now : Time) (b : Bucket) :
    Numbering (emitDamaged now st b).1 (emitDamaged now st b).2.2 := by
  obtain ⟨f, pending, out⟩ := st
  rcases emitDamaged_cases now f pending out b with
    ⟨u, g, v, -, hst⟩ | ⟨key, g, -, hst⟩ | hst | hst <;> rw [hst]
  · exact ⟨h.increasing, h.latest⟩
  · exact ⟨h.increasing, h.latest⟩
  · refine ⟨h.increasing, ?_⟩
    intro e he
    rw [countLate_foldl_closed]
    exact h.latest e he
  · exact h.finish b now _

theorem Numbering.emitPending_foldl {st : Fusion × List Emission} (h : Numbering st.1 st.2)
    (now : Time) (bs : List Bucket) :
    Numbering (bs.foldl (emitPending now) st).1 (bs.foldl (emitPending now) st).2 := by
  apply List.foldlRecOn (motive := fun st : Fusion × List Emission => Numbering st.1 st.2) bs _ h
  intro st hst b _
  exact hst.finish b now _

def numbered (f : Fusion) (done : List Bucket) (now : Time) : List Emission :=
  ((emitLoop f done now).2.1.foldl (emitPending now)
    ((emitLoop f done now).1, (emitLoop f done now).2.2)).2

theorem numberedInOrder_numbered (f : Fusion) (done : List Bucket) (now : Time) :
    NumberedInOrder (numbered f done now) := by
  have hloop : Numbering (emitLoop f done now).1 (emitLoop f done now).2.2 := by
    apply List.foldlRecOn (motive := fun st : EmitState => Numbering st.1 st.2.2)
    · exact ⟨List.Pairwise.nil, by simp⟩
    · intro st hst b _
      exact hst.emitDamaged now b
  exact (hloop.emitPending_foldl now _).increasing

/-- The buckets without a copy of matching CRC that a call makes events of have not opened
after one with such a copy and the same key, and the latter, as folding leaves them, are
still in order of opening. -/
structure DamagedFirst (f : Fusion) (done : List Bucket) (now : Time) : Prop where
  damaged : ∀ e ∈ (emitLoop f done now).2.2, ∀ g ∈ (emitLoop f done now).2.1,
    e.bucket.eventKey f.cfg = g.eventKey f.cfg → e.bucket.opened ≤ g.opened
  confirmed : OpenedInOrder f.cfg (emitLoop f done now).2.1

theorem event_of_built {cfg : FusionConfig} {e : Emission} (h : e.Built cfg) :
    e.event.key = e.bucket.eventKey cfg ∧ e.event.first_seen = e.bucket.opened := by
  refine ⟨?_, h.first_seen⟩
  rw [h.key, h.combined, h.packet]
  rfl

theorem built_numbered {done : List Bucket} {e : Emission} (he : e ∈ numbered f done now) :
    e.Built f.cfg := by
  have hkeep : FoldsKeep (fun _ => True) ⟨f, done, now⟩ := foldsKeep (fun _ _ _ _ => trivial) _
  have hrule := emit_rule hkeep (fun _ _ => trivial) (fun _ _ => trivial)
  exact (hrule.2 e (mem_sortOn.mpr he)).2

/-- The events of the loop are those of some of its buckets, in their order. -/
theorem emitDamaged_foldl_buckets (now : Time) (bs : List Bucket) (st : EmitState) :
    ∃ alone, alone.Sublist bs ∧ (bs.foldl (emitDamaged now) st).2.2.map Emission.bucket =
      st.2.2.map Emission.bucket ++ alone := by
  induction bs generalizing st with
  | nil => exact ⟨[], List.Sublist.refl _, by simp⟩
  | cons b bs ih =>
      obtain ⟨alone, hsub, hmap⟩ := ih (emitDamaged now st b)
      obtain ⟨f, pending, out⟩ := st
      rw [List.foldl_cons, hmap]
      rcases emitDamaged_cases now f pending out b with
        ⟨u, g, v, -, hst⟩ | ⟨key, g, -, hst⟩ | hst | hst <;> rw [hst]
      · exact ⟨alone, hsub.cons b, rfl⟩
      · exact ⟨alone, hsub.cons b, rfl⟩
      · exact ⟨alone, hsub.cons b, rfl⟩
      · refine ⟨b :: alone, hsub.cons_cons b, ?_⟩
        rw [List.map_append, List.append_assoc]
        rfl

theorem emitPending_foldl_buckets (now : Time) (bs : List Bucket) (st : Fusion × List Emission) :
    (bs.foldl (emitPending now) st).2.map Emission.bucket = st.2.map Emission.bucket ++ bs := by
  induction bs generalizing st with
  | nil => simp
  | cons b bs ih =>
      rw [List.foldl_cons, ih, emitPending, List.map_append, List.append_assoc]
      rfl

theorem openedInOrder_iff (f : Fusion) (done : List Bucket) (now : Time) :
    OpenedInOrder f.cfg ((numbered f done now).map Emission.bucket) ↔ DamagedFirst f done now := by
  have hsplit : (numbered f done now).map Emission.bucket =
      (emitLoop f done now).2.2.map Emission.bucket ++ (emitLoop f done now).2.1 :=
    emitPending_foldl_buckets now _ _
  have hdamaged : OpenedInOrder f.cfg ((emitLoop f done now).2.2.map Emission.bucket) := by
    obtain ⟨alone, hsub, hmap⟩ := emitDamaged_foldl_buckets now
      ((sortOn Bucket.opened done).filter (fun b => !b.hasGood))
      (f, (sortOn Bucket.opened done).filter Bucket.hasGood, [])
    rw [emitLoop, hmap, List.map_nil, List.nil_append]
    have hsorted := (sortOn_sorted Bucket.opened done).sublist
      (hsub.trans List.filter_sublist)
    apply hsorted.imp
    intro b c hle _
    exact hle
  rw [hsplit, OpenedInOrder, List.pairwise_append]
  constructor
  · rintro ⟨-, hconfirmed, hcross⟩
    exact ⟨fun e he g hg => hcross _ (List.mem_map_of_mem he) g hg, hconfirmed⟩
  · intro h
    refine ⟨hdamaged, h.confirmed, ?_⟩
    intro b hb g hg
    obtain ⟨e, he, rfl⟩ := List.mem_map.mp hb
    exact h.damaged e he g hg

/-- A list is handed over numbered in on-air order exactly if no damaged bucket among
those that end had opened after a confirmed one of its key. -/
theorem emit_numbered_iff (f : Fusion) (done : List Bucket) (now : Time) :
    NumberedInOrder (f.emit done now).2 ↔ DamagedFirst f done now := by
  rw [← openedInOrder_iff, OpenedInOrder, List.pairwise_map]
  have hrank : NumberedInOrder (f.emit done now).2 ↔ (numbered f done now).Pairwise
      (fun e e' => e.event.key = e'.event.key → e.event.first_seen ≤ e'.event.first_seen) :=
    rank_sortOn_iff (fun _ _ => Eq.symm) (numberedInOrder_numbered f done now)
  refine hrank.trans (List.Pairwise.iff_of_mem ?_)
  intro e e' he he'
  obtain ⟨hkey, hfirst⟩ := event_of_built (built_numbered he)
  obtain ⟨hkey', hfirst'⟩ := event_of_built (built_numbered he')
  rw [hkey, hfirst, hkey', hfirst']

/-- Where a call ends buckets, the damaged ones it makes events of opened first. -/
def EndsInOrder (f : Fusion) (op : Op) : Prop :=
  ∀ call ∈ f.ending op, DamagedFirst call.left call.done call.now

theorem step_numbered_iff (f : Fusion) (op : Op) :
    NumberedInOrder (f.step op).2 ↔ EndsInOrder f op := by
  rw [step_ending, EndsInOrder]
  cases f.ending op with
  | none => exact iff_of_true List.Pairwise.nil (by simp)
  | some call => simpa using emit_numbered_iff call.left call.done call.now

/-- Every list of a run is numbered in on-air order exactly if every call of the run ends
its damaged buckets first. -/
theorem run_numbered_iff (f : Fusion) (ops : List Op) :
    (∀ out ∈ (Machine.run step f ops).2, NumberedInOrder out) ↔
      Machine.Admitted step EndsInOrder f ops :=
  Machine.outputs_iff_admitted step_numbered_iff f ops

/-- No key is forgotten by a call. -/
def Remembers (f : Fusion) : Op → Prop
  | .popReady now => f.forgetOld now = f
  | _ => True

/-- A copy, and past its window a copy of a retransmission with a wrong CRC byte; both end
with the flush. -/
def damagedRetry : List Op :=
  [.add (commandCopy 0x01#8 0x35#8 "a" (-80) 0) none,
    .add (commandCopy 0x01#8 0x34#8 "a" (-80) 1) none, .flush 2]

/-- The transmission heard first is numbered as a repeat of the later one. -/
theorem damagedRetry_misnumbered :
    ((fresh {} none).run damagedRetry).2.map (fun e => (e.event.first_seen, e.event.repeat_index)) =
        [(0, 1), (1, 0)] ∧
      ¬ ∀ cfg skew ops, Machine.Admitted step Remembers (fresh cfg skew) ops →
        ∀ out ∈ (Machine.run step (fresh cfg skew) ops).2, NumberedInOrder out := by
  have hbad : ∃ out ∈ (Machine.run step (fresh {} none) damagedRetry).2, ¬ NumberedInOrder out := by
    decide +kernel
  refine ⟨by decide +kernel, ?_⟩
  intro hclaim
  obtain ⟨out, hout, hwrong⟩ := hbad
  exact hwrong (hclaim {} none damagedRetry ⟨trivial, trivial, trivial, trivial⟩ out hout)

end Fusion

end InsteonRf
