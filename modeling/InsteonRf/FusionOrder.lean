import InsteonRf.FusionNoSplit

/-!
# The order of arrivals

Where the copies of every message are verified and lie within one window, a run of
arrivals gathers them by key: the bucket filed under a key holds the copies with that
key and no others, in whatever order they came. What an event tells of its bucket does
not depend on the order of the copies in it.
-/
namespace InsteonRf
open OrderedDict Selection

theorem bestReading_right_comm (v x y : Option ℚ) :
    bestReading (bestReading v x) y = bestReading (bestReading v y) x := by
  have hmax : ∀ a b : ℚ, (if a < b then some b else some a) = some (max a b) := by
    intro a b
    split_ifs with h
    · rw [max_eq_right h.le]
    · rw [max_eq_left (not_lt.mp h)]
  cases x with
  | none => cases y <;> rfl
  | some a =>
      cases y with
      | none => rfl
      | some b =>
          cases v with
          | none =>
              simp only [bestReading, hmax]
              rw [max_comm]
          | some c =>
              simp only [bestReading, hmax]
              rw [max_right_comm]

theorem ReceiverView.note_right_comm (v : ReceiverView) (s t : Sighting) :
    (v.note s).note t = (v.note t).note s := by
  simp only [ReceiverView.note, ReceiverView.mk.injEq]
  refine ⟨trivial, ?_, ?_, ?_, ?_⟩
  · apply Bool.or_right_comm
  · apply bestReading_right_comm
  · apply max_right_comm
  · apply bestReading_right_comm

def noteInto (v : Option ReceiverView) (s : Sighting) : Option ReceiverView :=
  some ((v.getD {}).note s)

namespace Bucket

theorem get_views (ss : List Sighting) (r : String) :
    (views ss).get r = (ss.filter (fun s => s.receiver = r)).foldl noteInto none := by
  have hfold : ∀ d : Dict String ReceiverView,
      (ss.foldl (fun d s => d.set s.receiver (((d.get s.receiver).getD {}).note s)) d).get r =
        (ss.filter (fun s => s.receiver = r)).foldl noteInto (d.get r) := by
    induction ss with
    | nil => exact fun d => rfl
    | cons s ss ih =>
        intro d
        rw [List.foldl_cons, ih]
        by_cases h : s.receiver = r
        · rw [List.filter_cons_of_pos (by simpa using h), h, Dict.get_set_self]
          rfl
        · rw [List.filter_cons_of_neg (by simpa using h), Dict.get_set_of_ne _ (Ne.symm h)]
  exact hfold Dict.empty

theorem get_views_perm {ss ts : List Sighting} (h : ss.Perm ts) (r : String) :
    (views ss).get r = (views ts).get r := by
  rw [get_views, get_views]
  apply (h.filter _).foldl_eq'
  intro s _ t _ v
  simp only [noteInto, Option.getD_some, ReceiverView.note_right_comm]

/-- The interval of the bucket is no longer than its copies need. -/
structure Tight (b : Bucket) : Prop where
  opened : ∃ s ∈ b.sightings, s.when = b.opened
  last : ∃ s ∈ b.sightings, s.when = b.last

theorem tight_new (key : Key) (s : Sighting) : (new key s).Tight := by
  constructor
  · exact ⟨s, List.mem_singleton_self s, rfl⟩
  · exact ⟨s, List.mem_singleton_self s, rfl⟩

theorem tight_add {b : Bucket} (h : b.Tight) (s : Sighting) : (b.add s).Tight := by
  have hnew : s ∈ (b.add s).sightings := by simp
  have hold : ∀ t ∈ b.sightings, t ∈ (b.add s).sightings := by
    intro t ht
    simp [ht]
  constructor
  · obtain ⟨t, ht, hopened⟩ := h.opened
    rcases min_choice b.opened s.when with hmin | hmin
    · exact ⟨t, hold t ht, hopened.trans hmin.symm⟩
    · exact ⟨s, hnew, hmin.symm⟩
  · obtain ⟨t, ht, hlast⟩ := h.last
    rcases max_choice b.last s.when with hmax | hmax
    · exact ⟨t, hold t ht, hlast.trans hmax.symm⟩
    · exact ⟨s, hnew, hmax.symm⟩

theorem interval_of_perm {b c : Bucket} (hb : b.Tight) (hc : c.Tight)
    (h : b.sightings.Perm c.sightings) : b.opened = c.opened ∧ b.last = c.last := by
  obtain ⟨s, hs, hopened⟩ := hb.opened
  obtain ⟨t, ht, hopened'⟩ := hc.opened
  obtain ⟨u, hu, hlast⟩ := hb.last
  obtain ⟨v, hv, hlast'⟩ := hc.last
  constructor
  · apply le_antisymm
    · rw [← hopened']
      exact (b.spans t (h.mem_iff.mpr ht)).1
    · rw [← hopened]
      exact (c.spans s (h.mem_iff.mp hs)).1
  · apply le_antisymm
    · rw [← hlast]
      exact (c.spans u (h.mem_iff.mp hu)).2
    · rw [← hlast']
      exact (b.spans v (h.mem_iff.mpr hv)).2

theorem le_hops_left_min (b : Bucket) (allowCombine : Bool) (x : ℕ) :
    x ≤ (b.build allowCombine).hops_left_min ↔ ∀ y ∈ b.hopsList, x ≤ y := by
  have hhead : (b.sightings.head b.nonempty).packet.hopsLeft ∈ b.hopsList :=
    List.mem_map_of_mem (List.head_mem b.nonempty)
  exact (le_foldl_min _ _ x).trans ⟨And.right, fun h => ⟨h _ hhead, h⟩⟩

end Bucket

/-- What is compared of two events: the message, when it was on the air, how far it
travelled and what each receiver heard of it. -/
@[ext]
structure EventSummary where
  key : Key
  first_seen : Time
  last_seen : Time
  hops_left_min : ℕ
  hops_left_max : ℕ
  receivers : String → Option ReceiverView

def FusedEvent.summary (e : FusedEvent) : EventSummary where
  key := e.key
  first_seen := e.first_seen
  last_seen := e.last_seen
  hops_left_min := e.hops_left_min
  hops_left_max := e.hops_left_max
  receivers := e.receivers.get

/-- Buckets with the same key and copies are built into events that tell the same. -/
theorem Bucket.summary_of_perm {b c : Bucket} (hb : b.Tight) (hc : c.Tight) (hkey : b.key = c.key)
    (h : b.sightings.Perm c.sightings) (allowCombine : Bool) :
    (b.build allowCombine).summary = (c.build allowCombine).summary := by
  obtain ⟨hopened, hlast⟩ := interval_of_perm hb hc h
  have hhops : b.hopsList.Perm c.hopsList := h.map _
  ext1
  · exact hkey
  · exact hopened
  · exact hlast
  · apply eq_of_forall_le_iff
    intro x
    rw [FusedEvent.summary, FusedEvent.summary, le_hops_left_min, le_hops_left_min]
    simp only [hhops.mem_iff]
  · apply hhops.foldl_eq'
    intro x _ y _ z
    exact max_right_comm z x y
  · funext r
    exact get_views_perm h r

namespace Fusion

/-- The bucket of the copies of one message, once there is one. -/
def gathered : List Sighting → Option Bucket
  | [] => none
  | s :: ss => some ((Bucket.new s.key s).addAll ss)

theorem gathered_snoc {ss : List Sighting} {b : Bucket} (h : gathered ss = some b) (s : Sighting) :
    gathered (ss ++ [s]) = some (b.add s) := by
  cases ss with
  | nil => cases h
  | cons t ss =>
      obtain rfl := Option.some.inj h
      rw [List.cons_append, gathered, Bucket.addAll, List.foldl_append]
      rfl

theorem gathered_eq_none {ss : List Sighting} : gathered ss = none ↔ ss = [] := by
  cases ss with
  | nil => simp [gathered]
  | cons s ss => simp [gathered]

theorem sightings_gathered {ss : List Sighting} {b : Bucket} (h : gathered ss = some b) :
    b.sightings = ss := by
  cases ss with
  | nil => cases h
  | cons s ss =>
      obtain rfl := Option.some.inj h
      simp

/-- The bucket that gathered good copies of one key is tight and carries that key. -/
theorem gathered_spec {key : Key} {ss : List Sighting} {b : Bucket} (h : gathered ss = some b)
    (hkey : ∀ s ∈ ss, s.key = key) (hgood : ∀ s ∈ ss, s.good = true) : b.Tight ∧ b.key = key := by
  induction ss using List.reverseRecOn generalizing b with
  | nil => cases h
  | append_singleton ss s ih =>
      have hs : s.good = true := hgood s (by simp)
      have hsk : s.key = key := hkey s (by simp)
      cases hb : gathered ss with
      | none =>
          rw [gathered_eq_none.mp hb] at h
          obtain rfl := Option.some.inj h
          exact ⟨Bucket.tight_new _ s, by simpa [Bucket.addAll, Bucket.new, hs] using hsk⟩
      | some c =>
          obtain ⟨htight, -⟩ := ih hb (fun t ht => hkey t (List.mem_append_left _ ht))
            (fun t ht => hgood t (List.mem_append_left _ ht))
          rw [gathered_snoc hb s] at h
          obtain rfl := Option.some.inj h
          exact ⟨Bucket.tight_add htight s, by simpa [Bucket.add, hs] using hsk⟩

def copiesOf (key : Key) (ss : List Sighting) : List Sighting :=
  ss.filter (fun s => decide (s.key = key))

/-- Every arrival is in the bucket filed under its key, and nothing else is stored. -/
structure Gathers (ss : List Sighting) (f : Fusion) : Prop where
  open_get : ∀ key, f.openBuckets.get key = gathered (copiesOf key ss)
  ready : f.ready = []
  closed : f.closed = Dict.empty
  skew : f.skew = none

/-- Copies whose messages each fit into a window. -/
structure Fits (cfg : FusionConfig) (ss : List Sighting) : Prop where
  verified : ∀ s ∈ ss, s.verified = true
  window : ∀ s ∈ ss, ∀ t ∈ ss, s.key = t.key → s.when ≤ t.when + cfg.window_s

theorem Fits.perm {cfg : FusionConfig} {ss ts : List Sighting} (h : Fits cfg ss)
    (hperm : ss.Perm ts) : Fits cfg ts := by
  constructor
  · exact fun s hs => h.verified s (hperm.mem_iff.mpr hs)
  · exact fun s hs t ht => h.window s (hperm.mem_iff.mpr hs) t (hperm.mem_iff.mpr ht)

theorem Fits.sublist {cfg : FusionConfig} {ss ts : List Sighting} (h : Fits cfg ts)
    (hsub : ss.Sublist ts) : Fits cfg ss := by
  constructor
  · exact fun s hs => h.verified s (hsub.subset hs)
  · exact fun s hs t ht => h.window s (hsub.subset hs) t (hsub.subset ht)

variable {cfg : FusionConfig} {ss : List Sighting} {f : Fusion}

theorem Gathers.bucket (h : Gathers ss f) (hfits : Fits cfg ss) {key : Key} {b : Bucket}
    (hget : f.openBuckets.get key = some b) :
    b.sightings = copiesOf key ss ∧ b.Tight ∧ b.key = key ∧ b.hasGood = true := by
  have hb : gathered (copiesOf key ss) = some b := (h.open_get key).symm.trans hget
  have hgood : ∀ s ∈ copiesOf key ss, s.good = true := fun s hs =>
    Sighting.good_of_verified (hfits.verified s (List.mem_filter.mp hs).1)
  have hkey : ∀ s ∈ copiesOf key ss, s.key = key := fun s hs =>
    of_decide_eq_true (List.mem_filter.mp hs).2
  have hsightings := sightings_gathered hb
  obtain ⟨htight, hkeyed⟩ := gathered_spec hb hkey hgood
  refine ⟨hsightings, htight, hkeyed, ?_⟩
  obtain ⟨s, hs, -⟩ := htight.opened
  exact b.hasGood_iff.mpr ⟨s, hs, hgood s (hsightings ▸ hs)⟩

theorem copiesOf_snoc (key : Key) (ss : List Sighting) (s : Sighting) :
    copiesOf key (ss ++ [s]) = copiesOf key ss ++ if s.key = key then [s] else [] := by
  rw [copiesOf, List.filter_append, List.filter_singleton]
  simp [copiesOf]

theorem Gathers.write (h : Gathers ss f) {s : Sighting} {b : Bucket}
    (hb : gathered (copiesOf s.key ss ++ [s]) = some b) :
    Gathers (ss ++ [s]) { f with openBuckets := f.openBuckets.set s.key b } := by
  refine ⟨?_, h.ready, h.closed, h.skew⟩
  intro key
  rw [copiesOf_snoc]
  by_cases hkey : s.key = key
  · subst hkey
    rw [if_pos rfl, hb]
    exact Dict.get_set_self _ _ _
  · rw [if_neg hkey, List.append_nil, ← h.open_get key]
    exact Dict.get_set_of_ne _ (Ne.symm hkey) _

/-- A copy that fits with the ones gathered is accepted by the bucket of its message. -/
theorem Gathers.accepts (h : Gathers ss f) (hext : 0 ≤ cfg.extend_s)
    (hcap : cfg.window_s ≤ cfg.max_window_s) {s : Sighting} (hfits : Fits cfg (ss ++ [s]))
    {b : Bucket} (hget : f.openBuckets.get s.key = some b) : b.accepts cfg s.when = true := by
  have hold : Fits cfg ss := hfits.sublist (List.sublist_append_left ss [s])
  obtain ⟨hsightings, htight, -, -⟩ := h.bucket hold hget
  obtain ⟨t, ht, hopened⟩ := htight.opened
  have hmem := List.mem_filter.mp (hsightings ▸ ht)
  have hkey : t.key = s.key := of_decide_eq_true hmem.2
  have ht' : t ∈ ss ++ [s] := List.mem_append_left _ hmem.1
  have hafter := hfits.window s (by simp) t ht' hkey.symm
  have hbefore := hfits.window t ht' s (by simp) hkey
  apply Bucket.accepts_of_window hext ht hbefore hafter
  rw [← hopened]
  linarith

/-- A verified arrival joins the bucket of its message, or opens it. -/
theorem gathers_place (hext : 0 ≤ cfg.extend_s) (hcap : cfg.window_s ≤ cfg.max_window_s)
    (hcfg : f.cfg = cfg) {s : Sighting} (hfits : Fits cfg (ss ++ [s])) (h : Gathers ss f) :
    Gathers (ss ++ [s]) (f.place s) := by
  have hold : Fits cfg ss := hfits.sublist (List.sublist_append_left ss [s])
  have hgood : s.good = true := Sighting.good_of_verified (hfits.verified s (by simp))
  rcases f.place_cases s with
    ⟨b, hb, hst⟩ | ⟨b, hget, hrefuse, -⟩ | ⟨-, hlate, -⟩ | ⟨hnone, -, hst⟩
  · have hget := (filing_eq_some.mp hb).1
    rw [hst]
    exact h.write (gathered_snoc ((h.open_get s.key).symm.trans hget) s)
  · rw [hcfg, h.accepts hext hcap hfits hget] at hrefuse
    cases hrefuse
  · rw [isStraggler, h.closed] at hlate
    simp at hlate
  · have hempty : copiesOf s.key ss = [] :=
      gathered_eq_none.mp ((h.open_get s.key).symm.trans hnone)
    rcases f.group_cases s.key s with ⟨slot, c, -, hnear, -⟩ | ⟨-, hopens⟩
    · -- Every open bucket is confirmed, so none is found by similarity.
      obtain ⟨hget, -, hdamaged⟩ := nearest_spec hnear
      obtain ⟨-, -, -, hconfirmed⟩ := h.bucket hold hget
      rw [hdamaged hgood] at hconfirmed
      cases hconfirmed
    · rw [hst, hopens]
      apply h.write
      rw [hempty]
      rfl

theorem gathers_run (hext : 0 ≤ cfg.extend_s) (hcap : cfg.window_s ≤ cfg.max_window_s)
    {adds : List (Sighting × Option Time)} (hcfg : f.cfg = cfg)
    (hfits : Fits cfg (ss ++ adds.map Prod.fst)) (h : Gathers ss f) :
    Gathers (ss ++ adds.map Prod.fst) (f.run (arrivals adds)).1 := by
  induction adds generalizing f ss with
  | nil => simpa [arrivals] using h
  | cons a adds ih =>
      obtain ⟨s, arrived⟩ := a
      obtain ⟨hcfg', hskew', hopen, hready, hclosed, -⟩ := noteLag_fields f s arrived
      have hsplit : ss ++ ((s, arrived) :: adds).map Prod.fst =
          (ss ++ [s]) ++ adds.map Prod.fst := by simp
      rw [hsplit] at hfits ⊢
      have hnoted : Gathers ss (f.noteLag s arrived) := by
        constructor
        · rw [hopen]
          exact h.open_get
        · exact hready.trans h.ready
        · exact hclosed.trans h.closed
        · exact hskew'.trans h.skew
      have hfirst : Fits cfg (ss ++ [s]) := hfits.sublist (List.sublist_append_left _ _)
      have hstep : Gathers (ss ++ [s]) (f.step (.add s arrived)).1 := by
        rw [step_add h.skew]
        exact gathers_place hext hcap (hcfg'.trans hcfg) hfirst hnoted
      exact ih ((step_cfg f _).trans hcfg) hfits hstep

theorem emitLoop_of_good {done : List Bucket} (h : ∀ b ∈ done, b.hasGood = true) (now : Time) :
    emitLoop f done now = (f, sortOn Bucket.opened done, []) := by
  have hgood : ∀ b ∈ sortOn Bucket.opened done, b.hasGood = true :=
    fun b hb => h b (mem_sortOn.mp hb)
  have hnone : (sortOn Bucket.opened done).filter (fun b => !b.hasGood) = [] := by
    apply List.filter_eq_nil_iff.mpr
    intro b hb
    simp [hgood b hb]
  rw [emitLoop, hnone, List.filter_eq_self.mpr hgood]
  rfl

/-- A bucket with a verified copy is not combined, and numbering its event changes nothing
of what that tells. -/
theorem summary_finish {b : Bucket} {s : Sighting} (hs : s ∈ b.sightings) (hver : s.verified = true)
    (now : Time) (allowCombine : Bool) :
    (f.finish b now (b.build allowCombine)).2.event.summary = (b.build allowCombine).summary := by
  have hplain : (b.build allowCombine).combined = false := by
    by_contra hc
    have hnone := (Bucket.combined_from_of_combined (by simpa using hc)).2 s hs
    rw [hver] at hnone
    cases hnone
  simp [finish, hplain]
  rfl

theorem emitPending_foldl_summary (now : Time) {bs : List Bucket}
    (hbs : ∀ b ∈ bs, ∃ s ∈ b.sightings, s.verified = true) (st : Fusion × List Emission) :
    (bs.foldl (emitPending now) st).2.map (fun e => e.event.summary) =
      st.2.map (fun e => e.event.summary) ++
        bs.map (fun b => (b.build st.1.cfg.allow_combine).summary) := by
  induction bs generalizing st with
  | nil => simp
  | cons b bs ih =>
      obtain ⟨s, hs, hver⟩ := hbs b List.mem_cons_self
      have hstep : (emitPending now st b).2.map (fun e => e.event.summary) =
          st.2.map (fun e => e.event.summary) ++ [(b.build st.1.cfg.allow_combine).summary] := by
        rw [emitPending, List.map_append, List.map_singleton, summary_finish hs hver]
      rw [List.foldl_cons, ih (fun c hc => hbs c (List.mem_cons_of_mem _ hc)), hstep,
        List.append_assoc]
      rfl

theorem flush_summary (h : Gathers ss f) (hfits : Fits cfg ss) (now : Time) :
    ((f.flush now).2.map (fun e => e.event.summary)).Perm
      (f.openBuckets.values.map (fun b => (b.build f.cfg.allow_combine).summary)) := by
  have hspec : ∀ b ∈ f.openBuckets.values,
      b.hasGood = true ∧ ∃ s ∈ b.sightings, s.verified = true := by
    intro b hb
    obtain ⟨key, hget⟩ := Dict.exists_get_of_mem_values hb
    obtain ⟨hsightings, htight, -, hgood⟩ := h.bucket hfits hget
    obtain ⟨s, hs, -⟩ := htight.opened
    have hmem : s ∈ copiesOf key ss := hsightings ▸ hs
    exact ⟨hgood, s, hs, hfits.verified s (List.mem_filter.mp hmem).1⟩
  rw [flush, h.ready, List.nil_append, emit_eq,
    emitLoop_of_good (fun b hb => (hspec b hb).1) now]
  apply ((sortOn_perm _ _).map _).trans
  rw [emitPending_foldl_summary now (fun b hb => (hspec b (mem_sortOn.mp hb)).2)]
  exact (sortOn_perm _ _).map _

def collected (cfg : FusionConfig) (adds : List (Sighting × Option Time)) (now : Time) :
    List FusedEvent :=
  ((fresh cfg none).run (arrivals adds ++ [.flush now])).2.map Emission.event

theorem run_arrivals (f : Fusion) (adds : List (Sighting × Option Time)) :
    (f.run (arrivals adds)).2 = [] := by
  induction adds generalizing f with
  | nil => rfl
  | cons a adds ih => exact ih (f.step (.add a.1 a.2)).1

theorem collected_eq (cfg : FusionConfig) (adds : List (Sighting × Option Time)) (now : Time) :
    collected cfg adds now =
      (((fresh cfg none).run (arrivals adds)).1.flush now).2.map Emission.event := by
  rw [collected, run_append, run_arrivals, run_cons]
  simp [step]

/-- States that gathered the same copies hold buckets that are built into the same events. -/
theorem Gathers.values_perm {ts : List Sighting} {g : Fusion} (h : Gathers ss f)
    (h' : Gathers ts g) (hfits : Fits cfg ss) (hperm : ss.Perm ts) (allowCombine : Bool) :
    (f.openBuckets.values.map (fun b => (b.build allowCombine).summary)).Perm
      (g.openBuckets.values.map (fun b => (b.build allowCombine).summary)) := by
  have hfits' : Fits cfg ts := hfits.perm hperm
  apply Dict.values_perm_of_get
  intro key
  have hcopies : (copiesOf key ss).Perm (copiesOf key ts) := hperm.filter _
  cases hb : f.openBuckets.get key with
  | none =>
      have hempty : copiesOf key ss = [] := gathered_eq_none.mp ((h.open_get key).symm.trans hb)
      rw [hempty] at hcopies
      rw [h'.open_get, hcopies.nil_eq.symm]
      rfl
  | some b =>
      obtain ⟨hsightings, htight, hkey, -⟩ := h.bucket hfits hb
      cases hc : g.openBuckets.get key with
      | none =>
          have hempty : copiesOf key ts = [] :=
            gathered_eq_none.mp ((h'.open_get key).symm.trans hc)
          rw [hempty] at hcopies
          exact absurd (hsightings.trans hcopies.eq_nil) b.nonempty
      | some c =>
          obtain ⟨hsightings', htight', hkey', -⟩ := h'.bucket hfits' hc
          have hsame : b.sightings.Perm c.sightings := by
            rw [hsightings, hsightings']
            exact hcopies
          have hsummary := Bucket.summary_of_perm htight htight' (hkey.trans hkey'.symm) hsame
          rw [Option.map_some, Option.map_some, hsummary allowCombine]

theorem Gathers.map_key (h : Gathers ss f) (hfits : Fits cfg ss) :
    f.openBuckets.values.map Bucket.key = f.openBuckets.keys := by
  rw [Dict.values, Dict.keys, List.map_map]
  apply List.map_congr_left
  intro e he
  obtain ⟨-, -, hkey, -⟩ := h.bucket hfits (Dict.get_eq_some_iff.mpr he)
  exact hkey

theorem run_cfg (f : Fusion) (ops : List Op) : (f.run ops).1.cfg = f.cfg := by
  induction ops generalizing f with
  | nil => rfl
  | cons op ops ih => exact (ih (f.step op).1).trans (step_cfg f op)

theorem collected_summary (hfits : Fits cfg ss) {adds : List (Sighting × Option Time)}
    (h : Gathers ss ((fresh cfg none).run (arrivals adds)).1) (now : Time) :
    ((collected cfg adds now).map FusedEvent.summary).Perm
      (((fresh cfg none).run (arrivals adds)).1.openBuckets.values.map
        (fun b => (b.build cfg.allow_combine).summary)) := by
  have hflush := flush_summary h hfits now
  rw [run_cfg] at hflush
  rw [collected_eq, List.map_map]
  exact hflush

/-- In whatever order the copies of any messages arrive, where they are verified and each
message's lie within one window, the same events come out, one to a message. -/
theorem collected_perm (cfg : FusionConfig) (hext : 0 ≤ cfg.extend_s)
    (hcap : cfg.window_s ≤ cfg.max_window_s) (adds adds' : List (Sighting × Option Time))
    (hperm : (adds.map Prod.fst).Perm (adds'.map Prod.fst))
    (hver : ∀ s ∈ adds.map Prod.fst, s.verified = true)
    (hwindow : ∀ s ∈ adds.map Prod.fst, ∀ t ∈ adds.map Prod.fst, s.key = t.key →
      s.when ≤ t.when + cfg.window_s) (now now' : Time) :
    ((collected cfg adds now).map FusedEvent.summary).Perm
        ((collected cfg adds' now').map FusedEvent.summary) ∧
      ((collected cfg adds now).map FusedEvent.key).Nodup := by
  have hfits : Fits cfg (adds.map Prod.fst) := ⟨hver, hwindow⟩
  have hfits' : Fits cfg (adds'.map Prod.fst) := hfits.perm hperm
  have hstart : Gathers [] (fresh cfg none) := ⟨fun _ => rfl, rfl, rfl, rfl⟩
  have hend := gathers_run hext hcap rfl (by simpa using hfits) hstart
  have hend' := gathers_run hext hcap rfl (by simpa using hfits') hstart
  rw [List.nil_append] at hend hend'
  have hout := collected_summary hfits hend now
  have hout' := collected_summary hfits' hend' now'
  constructor
  · exact hout.trans ((hend.values_perm hend' hfits hperm _).trans hout'.symm)
  · have hkeys := hout.map EventSummary.key
    rw [List.map_map, List.map_map] at hkeys
    have hfiled := hend.map_key hfits
    apply hkeys.nodup_iff.mpr
    exact hfiled ▸ ((fresh cfg none).run (arrivals adds)).1.openBuckets.nodup

def orderedCopies : List (Sighting × Option Time) :=
  [goodCopy "a" 0, (commandCopy 0x02#8 0x66#8 "a" (-70) (1 / 10), none), goodCopy "b" (1 / 5),
    goodCopy "c" (3 / 5)]

theorem collected_perm_reversed :
    ((collected {} orderedCopies 9).map FusedEvent.summary).Perm
        ((collected {} orderedCopies.reverse 20).map FusedEvent.summary) ∧
      ((collected {} orderedCopies 9).map FusedEvent.key).Nodup :=
  collected_perm {} (by decide +kernel) (by decide +kernel) orderedCopies orderedCopies.reverse
    ((List.reverse_perm orderedCopies).symm.map Prod.fst) (by decide +kernel) (by decide +kernel) 9 20

def shrinkingConfig : FusionConfig where
  extend_s := -1 / 5

/-- The same three copies in two orders. -/
def lastInTime : List (Sighting × Option Time) :=
  [goodCopy "a" 0, goodCopy "c" (3 / 5), goodCopy "b" 0]

def lastTooLate : List (Sighting × Option Time) :=
  [goodCopy "a" 0, goodCopy "b" 0, goodCopy "c" (3 / 5)]

/-- A negative extension shrinks the bucket with every copy, and then the order decides
whether the last copy is refused. -/
theorem collected_shrinking :
    (shrinkingConfig.window_s ≤ shrinkingConfig.max_window_s ∧
        (lastInTime.map Prod.fst).Perm (lastTooLate.map Prod.fst) ∧
        (∀ s ∈ lastInTime.map Prod.fst, s.verified = true) ∧
        ∀ s ∈ lastInTime.map Prod.fst, ∀ t ∈ lastInTime.map Prod.fst, s.key = t.key →
          s.when ≤ t.when + shrinkingConfig.window_s) ∧
      (collected shrinkingConfig lastInTime 9).length = 1 ∧
      (collected shrinkingConfig lastTooLate 9).length = 2 ∧
      ¬ ((collected shrinkingConfig lastInTime 9).map FusedEvent.summary).Perm
        ((collected shrinkingConfig lastTooLate 9).map FusedEvent.summary) := by
  have hone : (collected shrinkingConfig lastInTime 9).length = 1 := by decide +kernel
  have htwo : (collected shrinkingConfig lastTooLate 9).length = 2 := by decide +kernel
  refine ⟨⟨by decide +kernel, ?_, by decide +kernel, by decide +kernel⟩, hone, htwo, ?_⟩
  · exact (List.Perm.swap _ _ []).cons _
  · intro h
    have hlen := h.length_eq
    rw [List.length_map, List.length_map, hone, htwo] at hlen
    omega

end Fusion

end InsteonRf
