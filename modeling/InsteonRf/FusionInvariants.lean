import InsteonRf.Fusion

/-!
# Invariants of fusion runs

What the emission loop can do with one bucket, and from it the rules by which a
property of buckets is carried over a whole run, to every bucket in the state
and every bucket an event was built from.
-/
namespace InsteonRf
open OrderedDict Selection

namespace Fusion

def homeBucket (f : Fusion) (pending : List Bucket) (b : Bucket) : Option Bucket :=
  let event := b.build f.cfg.allow_combine
  let key := messageKey event.packet
  if event.combined then
    (pending.find? (fun g => decide (g.key = key) && g.accepts f.cfg b.opened)).or
      ((f.openBuckets.get key).filter (fun g => g.accepts f.cfg b.opened))
  else none

theorem home_cases {f : Fusion} (pending : List Bucket) {b : Bucket}
    (hc : (b.build f.cfg.allow_combine).combined = true) :
    (∃ u g v, f.homeBucket pending b = some g ∧ pending = u ++ g :: v ∧
      f.home pending b (messageKey (b.build f.cfg.allow_combine).packet) =
        .pending (u ++ g.addAll b.sightings :: v)) ∨
    (∃ g, f.homeBucket pending b = some g ∧
      f.openBuckets.get (messageKey (b.build f.cfg.allow_combine).packet) = some g ∧
      f.home pending b (messageKey (b.build f.cfg.allow_combine).packet) = .live g) ∨
    (f.homeBucket pending b = none ∧
      (f.home pending b (messageKey (b.build f.cfg.allow_combine).packet) = .late ∨
        f.home pending b (messageKey (b.build f.cfg.allow_combine).packet) = .none)) := by
  rw [homeBucket, home]
  simp only [hc, if_true]
  generalize messageKey (b.build f.cfg.allow_combine).packet = key
  cases hup : updateFirst (fun g => decide (g.key = key) && g.accepts f.cfg b.opened)
      (fun g => g.addAll b.sightings) pending with
  | some l =>
      obtain ⟨u, g, v, hp, rfl, -, hfind⟩ := updateFirst_eq_some hup
      exact Or.inl ⟨u, g, v, by rw [hfind]; rfl, hp, rfl⟩
  | none =>
      rw [updateFirst_eq_none hup, Option.none_or]
      cases hopen : (f.openBuckets.get key).filter (fun g => g.accepts f.cfg b.opened) with
      | some g => exact Or.inr (Or.inl ⟨g, rfl, (Option.filter_eq_some_iff.mp hopen).1, rfl⟩)
      | none =>
          refine Or.inr (Or.inr ⟨rfl, ?_⟩)
          cases f.closed.get key with
          | none => exact Or.inr rfl
          | some seen =>
              simp only
              split_ifs
              · exact Or.inl rfl
              · exact Or.inr rfl

/-- The four things the loop does with a bucket without a verified copy: it folds it into
a pending bucket or an open one, counts its copies late, or builds its event. -/
theorem emitDamaged_home (now : Time) (f : Fusion) (pending : List Bucket) (out : List Emission)
    (b : Bucket) :
    (∃ u g v, f.homeBucket pending b = some g ∧ pending = u ++ g :: v ∧
      emitDamaged now (f, pending, out) b =
        ({ f with folded := f.folded + 1 }, u ++ g.addAll b.sightings :: v, out)) ∨
    (∃ key g, f.homeBucket pending b = some g ∧ f.openBuckets.get key = some g ∧
      emitDamaged now (f, pending, out) b =
        ({ f with
          openBuckets := f.openBuckets.set key (g.addAll b.sightings)
          folded := f.folded + 1 }, pending, out)) ∨
    emitDamaged now (f, pending, out) b =
      ({ b.sightings.foldl countLate f with folded := f.folded + 1 }, pending, out) ∨
    emitDamaged now (f, pending, out) b =
      ((f.finish b now (b.build f.cfg.allow_combine)).1, pending,
        out ++ [(f.finish b now (b.build f.cfg.allow_combine)).2]) := by
  by_cases hc : (b.build f.cfg.allow_combine).combined = true
  · rcases home_cases pending hc with
      ⟨u, g, v, hg, hp, hh⟩ | ⟨g, hg, hopen, hh⟩ | ⟨-, hh | hh⟩
    · exact Or.inl ⟨u, g, v, hg, hp, by simp [emitDamaged, hc, hh]⟩
    · exact Or.inr (Or.inl ⟨_, g, hg, hopen, by simp [emitDamaged, hc, hh]⟩)
    · exact Or.inr (Or.inr (Or.inl (by simp [emitDamaged, hc, hh])))
    · exact Or.inr (Or.inr (Or.inr (by simp [emitDamaged, hc, hh])))
  · exact Or.inr (Or.inr (Or.inr (by simp [emitDamaged, hc])))

theorem emitDamaged_cases (now : Time) (f : Fusion) (pending : List Bucket) (out : List Emission)
    (b : Bucket) :
    (∃ u g v, pending = u ++ g :: v ∧
      emitDamaged now (f, pending, out) b =
        ({ f with folded := f.folded + 1 }, u ++ g.addAll b.sightings :: v, out)) ∨
    (∃ key g, f.openBuckets.get key = some g ∧
      emitDamaged now (f, pending, out) b =
        ({ f with
          openBuckets := f.openBuckets.set key (g.addAll b.sightings)
          folded := f.folded + 1 }, pending, out)) ∨
    emitDamaged now (f, pending, out) b =
      ({ b.sightings.foldl countLate f with folded := f.folded + 1 }, pending, out) ∨
    emitDamaged now (f, pending, out) b =
      ((f.finish b now (b.build f.cfg.allow_combine)).1, pending,
        out ++ [(f.finish b now (b.build f.cfg.allow_combine)).2]) := by
  rcases emitDamaged_home now f pending out b with
    ⟨u, g, v, -, hp, hst⟩ | ⟨key, g, -, hg, hst⟩ | hst | hst
  · exact Or.inl ⟨u, g, v, hp, hst⟩
  · exact Or.inr (Or.inl ⟨key, g, hg, hst⟩)
  · exact Or.inr (Or.inr (Or.inl hst))
  · exact Or.inr (Or.inr (Or.inr hst))

theorem countLate_foldl_fields (ss : List Sighting) (f : Fusion) :
    (ss.foldl countLate f).cfg = f.cfg ∧ (ss.foldl countLate f).openBuckets = f.openBuckets ∧
      (ss.foldl countLate f).ready = f.ready := by
  induction ss generalizing f with
  | nil => exact ⟨rfl, rfl, rfl⟩
  | cons s ss ih => exact ih (f.countLate s)

theorem emitDamaged_cfg (now : Time) (st : EmitState) (b : Bucket) :
    (emitDamaged now st b).1.cfg = st.1.cfg ∧ (emitDamaged now st b).1.ready = st.1.ready := by
  obtain ⟨f, pending, out⟩ := st
  rcases emitDamaged_cases now f pending out b with
    ⟨u, g, v, -, h⟩ | ⟨key, g, -, h⟩ | h | h <;> rw [h]
  · exact ⟨rfl, rfl⟩
  · exact ⟨rfl, rfl⟩
  · obtain ⟨hcfg, -, hready⟩ := countLate_foldl_fields b.sightings f
    exact ⟨hcfg, hready⟩
  · exact ⟨rfl, rfl⟩

theorem emitDamaged_foldl_cfg (now : Time) (bs : List Bucket) (st : EmitState) :
    (bs.foldl (emitDamaged now) st).1.cfg = st.1.cfg ∧
      (bs.foldl (emitDamaged now) st).1.ready = st.1.ready := by
  induction bs generalizing st with
  | nil => exact ⟨rfl, rfl⟩
  | cons b bs ih =>
      obtain ⟨hcfg, hready⟩ := emitDamaged_cfg now st b
      obtain ⟨hcfg', hready'⟩ := ih (emitDamaged now st b)
      exact ⟨hcfg'.trans hcfg, hready'.trans hready⟩

theorem emitPending_foldl_fields (now : Time) (bs : List Bucket) (st : Fusion × List Emission) :
    (bs.foldl (emitPending now) st).1.cfg = st.1.cfg ∧
      (bs.foldl (emitPending now) st).1.openBuckets = st.1.openBuckets ∧
      (bs.foldl (emitPending now) st).1.ready = st.1.ready ∧
      (bs.foldl (emitPending now) st).1.late = st.1.late := by
  induction bs generalizing st with
  | nil => exact ⟨rfl, rfl, rfl, rfl⟩
  | cons b bs ih => exact ih (emitPending now st b)

/-- The loops of `emit` as the last of the state changes and the unsorted events. -/
def emitLoop (f : Fusion) (done : List Bucket) (now : Time) : EmitState :=
  ((sortOn Bucket.opened done).filter (fun b => !b.hasGood)).foldl (emitDamaged now)
    (f, (sortOn Bucket.opened done).filter Bucket.hasGood, [])

theorem emit_eq (f : Fusion) (done : List Bucket) (now : Time) :
    f.emit done now =
      (((emitLoop f done now).2.1.foldl (emitPending now)
          ((emitLoop f done now).1, (emitLoop f done now).2.2)).1,
        sortOn (fun e : Emission => e.event.first_seen)
          ((emitLoop f done now).2.1.foldl (emitPending now)
            ((emitLoop f done now).1, (emitLoop f done now).2.2)).2) := rfl

theorem emit_fields (f : Fusion) (done : List Bucket) (now : Time) :
    (f.emit done now).1.cfg = f.cfg ∧ (f.emit done now).1.ready = f.ready ∧
      (f.emit done now).1.openBuckets = (emitLoop f done now).1.openBuckets ∧
      (f.emit done now).1.late = (emitLoop f done now).1.late := by
  obtain ⟨hcfg, hready⟩ := emitDamaged_foldl_cfg now
    ((sortOn Bucket.opened done).filter (fun b => !b.hasGood))
    (f, (sortOn Bucket.opened done).filter Bucket.hasGood, [])
  obtain ⟨hcfg', hopen', hready', hlate'⟩ := emitPending_foldl_fields now (emitLoop f done now).2.1
    ((emitLoop f done now).1, (emitLoop f done now).2.2)
  rw [emit_eq]
  exact ⟨hcfg'.trans hcfg, hready'.trans hready, hopen', hlate'⟩

/-- A call that builds events: the state with the ending buckets taken out, those buckets,
and the time. -/
structure Ending where
  left : Fusion
  done : List Bucket
  now : Time

def ending (f : Fusion) : Op → Option Ending
  | .add _ _ => none
  | .popReady now =>
      let f := f.forgetOld now
      let closing := fun e : Key × Bucket => e.2.isClosed f.cfg (now - f.cfg.lateness_s)
      some
        { left := { f with openBuckets := f.openBuckets.filter (fun e => !closing e), ready := [] }
          done := f.ready ++ (f.openBuckets.filter closing).values
          now }
  | .flush now =>
      some
        { left := { f with openBuckets := Dict.empty, ready := [] }
          done := f.ready ++ f.openBuckets.values
          now }

theorem step_ending (f : Fusion) (op : Op) :
    (f.step op).2 = match f.ending op with
      | none => []
      | some call => (call.left.emit call.done call.now).2 := by
  cases op <;> rfl

theorem ending_spec {f : Fusion} {op : Op} {call : Ending} (h : f.ending op = some call) :
    f.step op = call.left.emit call.done call.now ∧ call.left.cfg = f.cfg ∧ call.left.ready = [] ∧
      (∀ b ∈ call.left.openBuckets.values, b ∈ f.buckets) ∧ ∀ b ∈ call.done, b ∈ f.buckets := by
  have hfilter : ∀ (p : Key × Bucket → Bool), ∀ b ∈ (f.openBuckets.filter p).values,
      b ∈ f.buckets := by
    intro p b hb
    obtain ⟨e, he, rfl⟩ := List.mem_map.mp hb
    exact List.mem_append_left _ (List.mem_map_of_mem (List.mem_filter.mp he).1)
  cases op with
  | add s arrived => cases h
  | popReady now =>
      obtain rfl := Option.some.inj h
      refine ⟨rfl, rfl, rfl, fun b hb => hfilter _ b hb, ?_⟩
      intro b hb
      rcases List.mem_append.mp hb with hready | hclosing
      · exact List.mem_append_right _ hready
      · exact hfilter _ b hclosing
  | flush now =>
      obtain rfl := Option.some.inj h
      refine ⟨rfl, rfl, rfl, by simp, ?_⟩
      intro b hb
      rcases List.mem_append.mp hb with hready | hopen
      · exact List.mem_append_right _ hready
      · exact List.mem_append_left _ hopen

def similar (f : Fusion) (s : Sighting) : Option Bucket :=
  if f.cfg.allow_combine then (f.nearest s).map Prod.snd else none

def joins (f : Fusion) (s : Sighting) : Option Bucket :=
  match f.openBuckets.get s.key with
  | some b => if b.accepts f.cfg s.when then some b else (f.retire s.key b).similar s
  | none => if f.isStraggler s.key s then none else f.similar s

theorem similar_of_nearest {f : Fusion} {s : Sighting} {slot : Key} {b : Bucket}
    (hallow : f.cfg.allow_combine = true) (h : f.nearest s = some (slot, b)) :
    f.similar s = some b := by
  rw [similar, if_pos hallow, h]
  rfl

theorem similar_spec {f : Fusion} {s : Sighting} {b : Bucket} (h : f.similar s = some b) :
    b.accepts f.cfg s.when = true ∧ (s.good = true → b.hasGood = false) := by
  rw [similar] at h
  split_ifs at h
  obtain ⟨e, he, rfl⟩ := Option.map_eq_some_iff.mp h
  exact (nearest_spec he).2

theorem joins_cases {f : Fusion} {s : Sighting} {b : Bucket} (h : f.joins s = some b) :
    b.accepts f.cfg s.when = true ∧
      (f.filing s = some b ∨ (s.good = true → b.hasGood = false)) := by
  rw [joins] at h
  cases hget : f.openBuckets.get s.key with
  | some c =>
      simp only [hget] at h
      split_ifs at h with hacc
      · obtain rfl := Option.some.inj h
        exact ⟨hacc, Or.inl (filing_eq_some.mpr ⟨hget, hacc⟩)⟩
      · obtain ⟨hb, hgood⟩ := similar_spec h
        exact ⟨hb, Or.inr hgood⟩
  | none =>
      simp only [hget] at h
      split_ifs at h
      obtain ⟨hb, hgood⟩ := similar_spec h
      exact ⟨hb, Or.inr hgood⟩

theorem joins_noteLag (f : Fusion) (s : Sighting) (arrived : Option Time) :
    (f.noteLag s arrived).joins s = f.joins s := by
  cases arrived <;> rfl

theorem group_cfg (f : Fusion) (key : Key) (s : Sighting) : (f.group key s).cfg = f.cfg := by
  rcases f.group_cases key s with ⟨slot, b, -, -, h⟩ | ⟨-, h⟩ <;> rw [h]

theorem place_cfg (f : Fusion) (s : Sighting) : (f.place s).cfg = f.cfg := by
  rcases f.place_cases s with
    ⟨b, -, h⟩ | ⟨b, -, -, h⟩ | ⟨-, -, h⟩ | ⟨-, -, h⟩ <;> rw [h]
  · exact group_cfg (f.retire s.key b) s.key s
  · rfl
  · exact group_cfg f s.key s

theorem step_cfg (f : Fusion) (op : Op) : (f.step op).1.cfg = f.cfg := by
  cases op with
  | add s arrived => exact (place_cfg _ _).trans (noteLag_fields f _ arrived).1
  | popReady now => exact (emit_fields _ _ _).1
  | flush now => exact (emit_fields _ _ _).1

end Fusion

/-- How an emitted event reads its bucket; combining gives it the key of the
recovered packet. -/
structure Emission.Built (cfg : FusionConfig) (e : Emission) : Prop where
  packet : e.event.packet = (e.bucket.build cfg.allow_combine).packet
  combined : e.event.combined = (e.bucket.build cfg.allow_combine).combined
  combined_from : e.event.combined_from = (e.bucket.build cfg.allow_combine).combined_from
  receivers : e.event.receivers = Bucket.views e.bucket.sightings
  key : e.event.key = if e.event.combined then messageKey e.event.packet else e.bucket.key
  first_seen : e.event.first_seen = e.bucket.opened
  last_seen : e.event.last_seen = e.bucket.last

namespace Fusion

theorem finish_built (f : Fusion) (b : Bucket) (now : Time) :
    (f.finish b now (b.build f.cfg.allow_combine)).2.Built f.cfg := by
  by_cases h : (b.build f.cfg.allow_combine).combined = true
  · constructor <;> simp [finish, h] <;> rfl
  · constructor <;> simp [finish, h] <;> rfl

/-- What the paths into a bucket have to keep of a property of buckets; `C` is a
condition on the inputs, used where a sighting is filed by its key. -/
structure BucketRule (P : Bucket → Prop) (C : Fusion → Op → Prop) : Prop where
  opening : ∀ s : Sighting, P (Bucket.new s.key s)
  similar : ∀ (b : Bucket) (s : Sighting), P b → (s.good = true → b.hasGood = false) → P (b.add s)
  filed : ∀ (f : Fusion) (s : Sighting) (arrived : Option Time) (b : Bucket),
    C f (.add s arrived) → f.filing (f.correct s) = some b → P b → P (b.add (f.correct s))
  fold : ∀ g b : Bucket, P g → b.hasGood = false → P (g.addAll b.sightings)

variable {P : Bucket → Prop}

/-- What the emission loop keeps. -/
structure EmitInv (P : Bucket → Prop) (cfg : FusionConfig) (st : EmitState) : Prop where
  same : st.1.cfg = cfg
  live : ∀ b ∈ st.1.openBuckets.values, P b
  pending : ∀ b ∈ st.2.1, P b
  out : ∀ e ∈ st.2.2, P e.bucket ∧ e.Built cfg

theorem values_set_rule {d : Dict Key Bucket} {k : Key} {b : Bucket}
    (hd : ∀ c ∈ d.values, P c) (hb : P b) : ∀ c ∈ (d.set k b).values, P c := by
  intro c hc
  rcases Dict.mem_values_set hc with rfl | hold
  · exact hb
  · exact hd c (Dict.mem_values_erase hold)

def turn (now : Time) (st : EmitState) (b : Bucket) : EmitState × Unit := (emitDamaged now st b, ())

/-- Folding the bucket keeps the property of the bucket it goes to. -/
def Folds (P : Bucket → Prop) (st : EmitState) (b : Bucket) : Prop :=
  ∀ g, st.1.homeBucket st.2.1 b = some g → P g → P b → P (g.addAll b.sightings)

theorem emitDamaged_inv {cfg : FusionConfig} {st : EmitState} (h : EmitInv P cfg st) (now : Time)
    {b : Bucket} (hb : P b) (hfold : Folds P st b) : EmitInv P cfg (emitDamaged now st b) := by
  obtain ⟨f, pending, out⟩ := st
  rcases emitDamaged_home now f pending out b with
    ⟨u, g, v, hhome, hp, hst⟩ | ⟨key, g, hhome, hg, hst⟩ | hst | hst <;> rw [hst]
  · refine ⟨h.same, h.live, ?_, h.out⟩
    have hold := h.pending
    simp only [hp] at hold
    intro c hc
    rcases List.mem_append.mp hc with hu | hgv
    · exact hold c (List.mem_append_left _ hu)
    · rcases List.mem_cons.mp hgv with rfl | hv
      · exact hfold g hhome (hold g (by simp)) hb
      · exact hold c (List.mem_append_right _ (List.mem_cons_of_mem _ hv))
  · exact ⟨h.same,
      values_set_rule h.live (hfold g hhome (h.live g (Dict.mem_values_of_get hg)) hb),
      h.pending, h.out⟩
  · obtain ⟨hcfg, hopen, -⟩ := countLate_foldl_fields b.sightings f
    exact ⟨hcfg.trans h.same, by simpa only [hopen] using h.live, h.pending, h.out⟩
  · refine ⟨h.same, h.live, h.pending, ?_⟩
    intro e he
    rcases List.mem_append.mp he with hold | hnew
    · exact h.out e hold
    · obtain rfl := List.mem_singleton.mp hnew
      refine ⟨hb, ?_⟩
      have hbuilt := finish_built f b now
      rw [show f.cfg = cfg from h.same] at hbuilt ⊢
      exact hbuilt

theorem emitDamaged_foldl_inv {cfg : FusionConfig} {now : Time} {bs : List Bucket}
    (hbs : ∀ b ∈ bs, P b) {st : EmitState} (h : EmitInv P cfg st)
    (hfold : Machine.Admitted (turn now) (Folds P) st bs) :
    EmitInv P cfg (bs.foldl (emitDamaged now) st) := by
  induction bs generalizing st with
  | nil => exact h
  | cons b bs ih =>
      exact ih (fun c hc => hbs c (List.mem_cons_of_mem b hc))
        (emitDamaged_inv h now (hbs b List.mem_cons_self) hfold.1) hfold.2

theorem emitPending_inv {cfg : FusionConfig} {st : Fusion × List Emission} (now : Time) {b : Bucket}
    (hcfg : st.1.cfg = cfg) (h : ∀ e ∈ st.2, P e.bucket ∧ e.Built cfg) (hb : P b) :
    ∀ e ∈ (emitPending now st b).2, P e.bucket ∧ e.Built cfg := by
  intro e he
  rcases List.mem_append.mp he with hold | hnew
  · exact h e hold
  · obtain rfl := List.mem_singleton.mp hnew
    refine ⟨hb, ?_⟩
    have hbuilt := finish_built st.1 b now
    rw [hcfg] at hbuilt ⊢
    exact hbuilt

theorem emitPending_foldl_inv {cfg : FusionConfig} (now : Time) (bs : List Bucket)
    (hbs : ∀ b ∈ bs, P b) {st : Fusion × List Emission} (hcfg : st.1.cfg = cfg)
    (h : ∀ e ∈ st.2, P e.bucket ∧ e.Built cfg) :
    ∀ e ∈ (bs.foldl (emitPending now) st).2, P e.bucket ∧ e.Built cfg := by
  induction bs generalizing st with
  | nil => exact h
  | cons b bs ih =>
      have hcfg' : (emitPending now st b).1.cfg = cfg := hcfg
      exact ih (fun c hc => hbs c (List.mem_cons_of_mem _ hc)) hcfg'
        (emitPending_inv now hcfg h (hbs b (by simp)))

/-- The state in which the loop over damaged buckets starts, and those buckets. -/
def emitStart (f : Fusion) (done : List Bucket) : EmitState :=
  (f, (sortOn Bucket.opened done).filter Bucket.hasGood, [])

def damaged (done : List Bucket) : List Bucket :=
  (sortOn Bucket.opened done).filter (fun b => !b.hasGood)

/-- Where every fold of the call keeps the property. -/
def FoldsKeep (P : Bucket → Prop) (call : Ending) : Prop :=
  Machine.Admitted (turn call.now) (Folds P) (emitStart call.left call.done) (damaged call.done)

theorem foldsKeep (hfold : ∀ g b : Bucket, P g → b.hasGood = false → P (g.addAll b.sightings))
    (call : Ending) : FoldsKeep P call := by
  apply Machine.admitted_of_mem
  intro st b hb g _ hg _
  exact hfold g b hg (by simpa using (List.mem_filter.mp hb).2)

/-- A property of buckets that folding keeps is kept by the whole of `emit`. -/
theorem emit_rule {call : Ending} (hfold : FoldsKeep P call)
    (hopen : ∀ b ∈ call.left.openBuckets.values, P b) (hdone : ∀ b ∈ call.done, P b) :
    (∀ b ∈ (call.left.emit call.done call.now).1.openBuckets.values, P b) ∧
      ∀ e ∈ (call.left.emit call.done call.now).2, P e.bucket ∧ e.Built call.left.cfg := by
  have hsorted : ∀ b ∈ sortOn Bucket.opened call.done, P b := fun b hb => hdone b (mem_sortOn.mp hb)
  have hstart : EmitInv P call.left.cfg (emitStart call.left call.done) :=
    ⟨rfl, hopen, fun b hb => hsorted b (List.mem_filter.mp hb).1, by simp [emitStart]⟩
  have hloop : EmitInv P call.left.cfg (emitLoop call.left call.done call.now) :=
    emitDamaged_foldl_inv (fun b hb => hsorted b (List.mem_filter.mp hb).1) hstart hfold
  obtain ⟨-, -, hopen', -⟩ := emit_fields call.left call.done call.now
  constructor
  · rw [hopen']
    exact hloop.live
  · intro e he
    rw [emit_eq, mem_sortOn] at he
    exact emitPending_foldl_inv call.now _ hloop.pending hloop.same hloop.out e he

theorem group_rule {f : Fusion} {s : Sighting} (hnew : P (Bucket.new s.key s))
    (hjoin : ∀ b, f.similar s = some b → P b → P (b.add s))
    (h : ∀ b ∈ f.openBuckets.values, P b) : ∀ b ∈ (f.group s.key s).openBuckets.values, P b := by
  rcases f.group_cases s.key s with ⟨slot, b, hallow, hn, hst⟩ | ⟨-, hst⟩ <;> rw [hst]
  · obtain ⟨hget, -, -⟩ := nearest_spec hn
    exact values_set_rule h
      (hjoin b (similar_of_nearest hallow hn) (h b (Dict.mem_values_of_get hget)))
  · exact values_set_rule h hnew

theorem group_ready (f : Fusion) (key : Key) (s : Sighting) : (f.group key s).ready = f.ready := by
  rcases f.group_cases key s with ⟨slot, b, -, -, h⟩ | ⟨-, h⟩ <;> rw [h]

theorem buckets_rule {f : Fusion} (hopen : ∀ b ∈ f.openBuckets.values, P b)
    (hready : ∀ b ∈ f.ready, P b) : ∀ b ∈ f.buckets, P b :=
  fun b hb => (List.mem_append.mp hb).elim (hopen b) (hready b)

theorem place_rule {f : Fusion} {s : Sighting} (hnew : P (Bucket.new s.key s))
    (hjoin : ∀ b, f.joins s = some b → P b → P (b.add s)) (h : ∀ b ∈ f.buckets, P b) :
    ∀ b ∈ (f.place s).buckets, P b := by
  have hvals : ∀ b ∈ f.openBuckets.values, P b := fun b hb => h b (List.mem_append_left _ hb)
  have hrest : ∀ b ∈ f.ready, P b := fun b hb => h b (List.mem_append_right _ hb)
  rcases f.place_cases s with
    ⟨b, hb, hst⟩ | ⟨b, hget, hacc, hst⟩ | ⟨-, -, hst⟩ | ⟨hget, hlate, hst⟩ <;> rw [hst]
  · obtain ⟨hget, hacc⟩ := filing_eq_some.mp hb
    have hjoins : f.joins s = some b := by simp [joins, hget, hacc]
    exact buckets_rule
      (values_set_rule hvals (hjoin b hjoins (hvals b (Dict.mem_values_of_get hget)))) hrest
  · have hjoins : f.joins s = (f.retire s.key b).similar s := by simp [joins, hget, hacc]
    refine buckets_rule (group_rule hnew ?_ ?_) ?_
    · exact fun c hc => hjoin c (hjoins.trans hc)
    · exact fun c hmem => hvals c (Dict.mem_values_erase hmem)
    · rw [group_ready]
      intro c hmem
      rcases List.mem_append.mp hmem with hold | hnew
      · exact hrest c hold
      · obtain rfl := List.mem_singleton.mp hnew
        exact hvals c (Dict.mem_values_of_get hget)
  · exact buckets_rule hvals hrest
  · have hjoins : f.joins s = f.similar s := by simp [joins, hget, hlate]
    refine buckets_rule (group_rule hnew ?_ hvals) ?_
    · exact fun c hc => hjoin c (hjoins.trans hc)
    · rw [group_ready]
      exact hrest

theorem add_rule {f : Fusion} {s : Sighting} (arrived : Option Time)
    (hnew : P (Bucket.new (f.correct s).key (f.correct s)))
    (hjoin : ∀ b, f.joins (f.correct s) = some b → P b → P (b.add (f.correct s)))
    (h : ∀ b ∈ f.buckets, P b) : ∀ b ∈ (f.add s arrived).buckets, P b := by
  obtain ⟨-, -, hopen, hready, -, -⟩ := noteLag_fields f (f.correct s) arrived
  apply place_rule hnew
  · intro b hb
    rw [joins_noteLag] at hb
    exact hjoin b hb
  · rw [buckets, hopen, hready]
    exact h

/-- A property that the folds of a call keep is kept by the call. -/
theorem ending_rule {f : Fusion} (op : Op) {call : Ending} (hcall : f.ending op = some call)
    (hfold : FoldsKeep P call) (h : ∀ b ∈ f.buckets, P b) :
    (∀ b ∈ (f.step op).1.buckets, P b) ∧ ∀ e ∈ (f.step op).2, P e.bucket ∧ e.Built f.cfg := by
  obtain ⟨hstep, hcfg, hready, hleft, hdone⟩ := ending_spec hcall
  obtain ⟨hvals, hout⟩ :=
    emit_rule hfold (fun b hb => h b (hleft b hb)) (fun b hb => h b (hdone b hb))
  rw [hstep, ← hcfg]
  refine ⟨?_, hout⟩
  intro b hb
  rw [buckets, (emit_fields _ _ _).2.1, hready, List.append_nil] at hb
  exact hvals b hb

variable {C : Fusion → Op → Prop}

theorem step_rule (rule : BucketRule P C) {f : Fusion} {op : Op} (hc : C f op)
    (h : ∀ b ∈ f.buckets, P b) :
    (∀ b ∈ (f.step op).1.buckets, P b) ∧ ∀ e ∈ (f.step op).2, P e.bucket ∧ e.Built f.cfg := by
  cases op with
  | add s arrived =>
      refine ⟨add_rule arrived (rule.opening _) ?_ h, by simp [step]⟩
      intro b hb hPb
      rcases (joins_cases hb).2 with hfiled | hgood
      · exact rule.filed f s arrived b hc hfiled hPb
      · exact rule.similar b _ hPb hgood
  | popReady now => exact ending_rule (.popReady now) rfl (foldsKeep rule.fold _) h
  | flush now => exact ending_rule (.flush now) rfl (foldsKeep rule.fold _) h

/-- A property kept by every path into a bucket holds of all buckets of a run and
of every bucket an event was built from. -/
theorem run_rule (rule : BucketRule P C) {f : Fusion} (h : ∀ b ∈ f.buckets, P b) {ops : List Op}
    (ha : Machine.Admitted step C f ops) :
    (∀ b ∈ (f.run ops).1.buckets, P b) ∧ ∀ e ∈ (f.run ops).2, P e.bucket ∧ e.Built f.cfg := by
  induction ops generalizing f with
  | nil => exact ⟨h, by simp⟩
  | cons op ops ih =>
      obtain ⟨hstep, hout⟩ := step_rule rule ha.1 h
      obtain ⟨hrun, hrest⟩ := ih hstep ha.2
      rw [step_cfg] at hrest
      refine ⟨hrun, ?_⟩
      intro e he
      rw [run_cons] at he
      exact (List.mem_append.mp he).elim (hout e) (hrest e)

@[simp] theorem buckets_fresh (cfg : FusionConfig) (skew : Option ClockSkew) :
    (fresh cfg skew).buckets = [] := rfl

end Fusion

end InsteonRf
