import InsteonRf.FusionInvariants

/-!
# Keys of buckets and events

A bucket opened by a damaged copy stays filed under that copy's key when a copy
with a matching CRC joins it by similarity. Which message a bucket stands for is
therefore settled at one place, where a sighting is filed by its key.
-/
namespace InsteonRf
open OrderedDict Selection

namespace Fusion

/-- The verified copies in a bucket are copies of one message. -/
def NotMerged (b : Bucket) : Prop :=
  ∀ s ∈ b.sightings, ∀ t ∈ b.sightings, s.verified = true → t.verified = true → s.key = t.key

instance : DecidablePred NotMerged := fun b =>
  inferInstanceAs (Decidable (∀ s ∈ b.sightings, ∀ t ∈ b.sightings,
    s.verified = true → t.verified = true → s.key = t.key))

/-- A verified copy joins by its key only a bucket whose verified copies have it. -/
def FilesVerified (f : Fusion) : Op → Prop
  | .add s _ => (f.correct s).verified = true → ∀ b ∈ f.filing (f.correct s),
      ∀ t ∈ b.sightings, t.verified = true → t.key = (f.correct s).key
  | _ => True

theorem notMerged_add {b : Bucket} {s : Sighting} (hb : NotMerged b)
    (hs : s.verified = true → ∀ t ∈ b.sightings, t.verified = true → t.key = s.key) :
    NotMerged (b.add s) := by
  intro t ht u hu hvt hvu
  rw [Bucket.sightings_add, List.mem_append, List.mem_singleton] at ht hu
  rcases ht with ht | rfl <;> rcases hu with hu | rfl
  · exact hb t ht u hu hvt hvu
  · exact hs hvu t ht hvt
  · exact (hs hvt u hu hvu).symm
  · rfl

theorem notMerged_of_add {b : Bucket} {s : Sighting} (h : NotMerged (b.add s))
    (hs : s.verified = true) : ∀ t ∈ b.sightings, t.verified = true → t.key = s.key :=
  fun t ht hvt => h t (by simp [ht]) s (by simp) hvt hs

theorem verified_false_of_mem {b : Bucket} (h : b.hasGood = false) {s : Sighting}
    (hs : s ∈ b.sightings) : s.verified = false := by
  by_contra hver
  have hgood := Sighting.good_of_verified (s := s) (by simpa using hver)
  rw [Bucket.good_false_of_mem h hs] at hgood
  cases hgood

theorem notMerged_rule : BucketRule NotMerged FilesVerified where
  opening := by
    intro s t ht u hu _ _
    rw [Bucket.sightings_new, List.mem_singleton] at ht hu
    rw [ht, hu]
  similar := by
    intro b s hb hgood
    apply notMerged_add hb
    intro hver t ht hvt
    have hnone := verified_false_of_mem (hgood (Sighting.good_of_verified hver)) ht
    rw [hvt] at hnone
    cases hnone
  filed := fun f s arrived b hc hb hn => notMerged_add hn (fun hver => hc hver b hb)
  fold := by
    intro g b hg hb s hs t ht hvs hvt
    have hold : ∀ u ∈ (g.addAll b.sightings).sightings, u.verified = true → u ∈ g.sightings := by
      intro u hu hver
      rw [Bucket.sightings_addAll, List.mem_append] at hu
      apply hu.resolve_right
      intro hmem
      rw [verified_false_of_mem hb hmem] at hver
      cases hver
    exact hg s (hold s hs hvs) t (hold t ht hvt) hvs hvt

theorem add_filed {f : Fusion} {s : Sighting} {arrived : Option Time} {b : Bucket}
    (h : f.filing (f.correct s) = some b) :
    b.add (f.correct s) ∈ (f.add s arrived).buckets := by
  obtain ⟨hcfg, -, hopen, -⟩ := noteLag_fields f (f.correct s) arrived
  obtain ⟨hget, hacc⟩ := filing_eq_some.mp h
  refine List.mem_append_left _ (Dict.mem_values_of_get (k := (f.correct s).key) ?_)
  rw [add, place, hopen, hget, hcfg]
  simp [hacc]

/-- No bucket of a run holds verified copies of two messages, and no event is built
from one, exactly when every verified copy that is filed by its key meets its own. -/
theorem run_notMerged_iff (cfg : FusionConfig) (skew : Option ClockSkew) (ops : List Op) :
    ((∀ us, us <+: ops → ∀ b ∈ ((fresh cfg skew).run us).1.buckets, NotMerged b) ∧
        ∀ e ∈ ((fresh cfg skew).run ops).2, NotMerged e.bucket) ↔
      Machine.Admitted step FilesVerified (fresh cfg skew) ops := by
  constructor
  · rintro ⟨hstates, -⟩
    apply Machine.admitted_iff.mpr
    intro us op vs heq
    cases op with
    | popReady now => trivial
    | flush now => trivial
    | add s arrived =>
        intro hver b hb t ht hvt
        have hpre : us ++ [Op.add s arrived] <+: ops := ⟨vs, by simp [heq]⟩
        refine notMerged_of_add ?_ hver t ht hvt
        apply hstates _ hpre _
        rw [run_append]
        exact add_filed hb
  · intro ha
    refine ⟨?_, fun e he => ((run_rule notMerged_rule (by simp) ha).2 e he).1⟩
    rintro us ⟨vs, rfl⟩ b hb
    exact (run_rule notMerged_rule (by simp) ((Machine.admitted_append _ us vs).mp ha).1).1 b hb

/-- A copy of one command damaged into another's bytes opens a bucket, a verified
copy of its own command joins it by similarity, and one of the other by its key. -/
def mergingRun : List Op :=
  [.add (commandCopy 0x01#8 0x66#8 "a" (-80) 0) none,
    .add (commandCopy 0x02#8 0x66#8 "b" (-70) (1 / 100)) none,
    .add (commandCopy 0x01#8 0x35#8 "c" (-75) (1 / 50)) none]

theorem mergingRun_merges :
    (∃ b ∈ ((fresh {} none).run mergingRun).1.buckets, ¬ NotMerged b) ∧
      ∃ e ∈ ((fresh {} none).run (mergingRun ++ [.flush 1])).2, ¬ NotMerged e.bucket := by
  decide +kernel

/-- Every copy with a matching CRC has the bucket's key. -/
def KeyAgrees (b : Bucket) : Prop := ∀ s ∈ b.sightings, s.good = true → s.key = b.key

/-- A copy with a matching CRC joins by its key no bucket confirmed under another. -/
def FilesGood (f : Fusion) : Op → Prop
  | .add s _ => (f.correct s).good = true → ∀ b ∈ f.filing (f.correct s),
      b.hasGood = true → b.key = (f.correct s).key
  | _ => True

instance (f : Fusion) (op : Op) : Decidable (FilesGood f op) := by
  cases op <;> unfold FilesGood <;> infer_instance

theorem keyAgrees_add {b : Bucket} {s : Sighting} (hb : KeyAgrees b)
    (hs : s.good = true → b.hasGood = true → b.key = s.key) : KeyAgrees (b.add s) := by
  intro t ht hgood
  rw [Bucket.sightings_add, List.mem_append, List.mem_singleton] at ht
  by_cases hsg : s.good = true
  · have hkey : (b.add s).key = s.key := by simp [Bucket.add, hsg]
    rw [hkey]
    rcases ht with ht | rfl
    · rw [hb t ht hgood]
      exact hs hsg (b.hasGood_iff.mpr ⟨t, ht, hgood⟩)
    · rfl
  · have hkey : (b.add s).key = b.key := by simp [Bucket.add, hsg]
    rw [hkey]
    rcases ht with ht | rfl
    · exact hb t ht hgood
    · exact absurd hgood hsg

theorem keyAgrees_rule : BucketRule KeyAgrees FilesGood where
  opening := by
    intro s t ht hgood
    rw [Bucket.sightings_new, List.mem_singleton] at ht
    simp [ht, Bucket.new]
  similar := by
    intro b s hb hnone
    apply keyAgrees_add hb
    intro hgood hhas
    rw [hnone hgood] at hhas
    cases hhas
  filed := fun f s arrived b hc hb h => keyAgrees_add h (fun hgood => hc hgood b hb)
  fold := by
    intro g b hg hb s hs hgood
    have hbad : ∀ t ∈ b.sightings, t.good = false := fun t ht => Bucket.good_false_of_mem hb ht
    rw [Bucket.sightings_addAll, List.mem_append] at hs
    rw [(Bucket.addAll_keeps hbad).1]
    rcases hs with hs | hs
    · exact hg s hs hgood
    · rw [hbad s hs] at hgood
      cases hgood

/-- An event from a bucket whose key agrees with its copies carries the key of its packet. -/
theorem key_of_built {cfg : FusionConfig} {e : Emission} (he : e.Built cfg)
    (hb : KeyAgrees e.bucket) (hcrc : e.event.packet.crcOk = some true) :
    e.event.key = messageKey e.event.packet := by
  rw [he.key]
  split_ifs with hc
  · rfl
  · rw [he.combined] at hc
    rw [he.packet] at hcrc ⊢
    simp only [Bucket.build] at hc hcrc ⊢
    rcases e.bucket.choosePacket_cases cfg.allow_combine with
      ⟨s, hs, hver, hchosen⟩ | ⟨-, ⟨p, n, -, -, hchosen⟩ | hchosen⟩
    · rw [hchosen]
      exact (hb s hs (Sighting.good_of_verified hver)).symm
    · rw [hchosen] at hc
      exact absurd rfl hc
    · rw [hchosen] at hcrc ⊢
      exact (hb _ (List.head_mem e.bucket.nonempty) (decide_eq_true hcrc)).symm

/-- Events with a matching CRC are filed under the key of the bytes they carry in
every run that files no CRC-valid copy into a bucket confirmed under another key. -/
theorem run_key_of_packet (cfg : FusionConfig) (skew : Option ClockSkew) (ops : List Op)
    (ha : Machine.Admitted step FilesGood (fresh cfg skew) ops) :
    ∀ e ∈ ((fresh cfg skew).run ops).2, e.event.packet.crcOk = some true →
      e.event.key = messageKey e.event.packet := by
  intro e he hcrc
  obtain ⟨hagrees, hbuilt⟩ := (run_rule keyAgrees_rule (by simp) ha).2 e he
  exact key_of_built hbuilt hagrees hcrc

def repeatedRun : List Op :=
  [.add (commandCopy 0x01#8 0x35#8 "a" (-80) 0) none,
    .add (commandCopy 0x01#8 0x35#8 "b" (-70) (1 / 100)) none, .flush 1]

theorem run_key_of_packet_repeated :
    Machine.Admitted step FilesGood (fresh {} none) repeatedRun ∧
      ∀ e ∈ ((fresh {} none).run repeatedRun).2, e.event.packet.crcOk = some true →
        e.event.key = messageKey e.event.packet :=
  ⟨by decide +kernel, run_key_of_packet {} none repeatedRun (by decide +kernel)⟩

/-- The event of the merged bucket carries the stronger command under the other's key. -/
theorem mergingRun_key :
    ∃ e ∈ ((fresh {} none).run (mergingRun ++ [.flush 1])).2,
      e.event.packet.crcOk = some true ∧ e.event.key ≠ messageKey e.event.packet := by
  decide +kernel

end Fusion

end InsteonRf
