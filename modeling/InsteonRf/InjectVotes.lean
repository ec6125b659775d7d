import InsteonRf.FusionInvariants
import InsteonRf.Inject

/-!
# Votes behind a combined event

An event is combined from all sightings of its bucket, and the injector compares
that count with the number of receivers it asks for. The two are the same just when
no receiver has two sightings in the bucket.
-/
namespace InsteonRf
open OrderedDict

namespace Bucket

def receiverCount (b : Bucket) : ℕ := (b.sightings.map Sighting.receiver).toFinset.card

/-- No receiver has two sightings in the bucket. -/
def CopiesApart (b : Bucket) : Prop := (b.sightings.map Sighting.receiver).Nodup

instance (b : Bucket) : Decidable b.CopiesApart :=
  inferInstanceAs (Decidable (b.sightings.map Sighting.receiver).Nodup)

theorem receiverCount_eq_iff (b : Bucket) :
    b.receiverCount = b.sightings.length ↔ b.CopiesApart := by
  unfold receiverCount CopiesApart
  rw [← List.length_map (f := Sighting.receiver)]
  exact Multiset.toFinset_card_eq_card_iff_nodup (m := Multiset.ofList (b.sightings.map _))

end Bucket

namespace Fusion

theorem emission_built (cfg : FusionConfig) (skew : Option ClockSkew) (ops : List Op) :
    ∀ e ∈ ((fresh cfg skew).run ops).2, e.Built cfg := by
  have hrule : BucketRule (fun _ => True) (fun _ _ => True) :=
    ⟨fun _ => trivial, fun _ _ _ _ => trivial, fun _ _ _ _ _ _ _ => trivial,
      fun _ _ _ _ => trivial⟩
  have ha : Machine.Admitted step (fun _ _ => True) (fresh cfg skew) ops :=
    Machine.admitted_iff.mpr (fun _ _ _ _ => trivial)
  exact fun e he => ((run_rule hrule (by simp) ha).2 e he).2

/-- A combined event counts the sightings of its bucket, none of them verified. -/
theorem combined_from_of_built {cfg : FusionConfig} {e : Emission} (he : e.Built cfg)
    (hc : e.event.combined = true) : e.event.combined_from = e.bucket.sightings.length := by
  rw [he.combined] at hc
  rw [he.combined_from]
  exact (Bucket.combined_from_of_combined hc).1

end Fusion

namespace Injector

/-- Every event considered is an emitted one, with or without the modem's verdict. -/
def Feeds (out : List Emission) (ops : List Op) : Prop :=
  ∀ enabled event now, Op.consider enabled event now ∈ ops →
    ∃ e ∈ out, ∃ saw, event = { e.event with plm_saw_it := saw }

/-- Of the events of a fusion run fed to an injector, a combined one is injected only
with enough receivers behind it, if no receiver has two copies in a combined bucket. -/
theorem run_votes (cfg : FusionConfig) (skew : Option ClockSkew) (fused : List Fusion.Op)
    (icfg : InjectorConfig) (memory : Option PlmMemory) (ops : List Op)
    (hfeeds : Feeds ((Fusion.fresh cfg skew).run fused).2 ops)
    (hcopies : ∀ e ∈ ((Fusion.fresh cfg skew).run fused).2,
      e.event.combined = true → e.bucket.CopiesApart) :
    ∀ us enabled event now vs, ops = us ++ .consider enabled event now :: vs →
      (((new icfg memory).run us).1.consider enabled event now).2.decision.inject = true →
      event.combined = true →
      ∃ e ∈ ((Fusion.fresh cfg skew).run fused).2,
        (∃ saw, event = { e.event with plm_saw_it := saw }) ∧
          icfg.min_combined_receivers ≤ (e.bucket.receiverCount : ℤ) := by
  intro us enabled event now vs heq hinject hcombined
  obtain ⟨e, he, saw, rfl⟩ := hfeeds enabled event now (by simp [heq])
  refine ⟨e, he, ⟨saw, rfl⟩, ?_⟩
  have hcfg : ((new icfg memory).run us).1.cfg = icfg := run_cfg (new icfg memory) us
  obtain ⟨c, hvet, -⟩ := injected_cases hinject
  rw [hcfg] at hvet
  have hvotes := (vetted_of_vet hvet).2.votes hcombined
  have hcount := Fusion.combined_from_of_built (Fusion.emission_built cfg skew fused e he) hcombined
  rw [(Bucket.receiverCount_eq_iff e.bucket).mpr (hcopies e he hcombined), ← hcount]
  exact hvotes

/-- Three copies of the sample command, each with two bits of its CRC wrong. -/
def votedRun (r₁ r₂ r₃ : String) : List Fusion.Op :=
  [.add (Fusion.commandCopy 0x01#8 0x36#8 r₁ (-70) 0) none,
    .add (Fusion.commandCopy 0x01#8 0x39#8 r₂ (-70) (1 / 20)) none,
    .add (Fusion.commandCopy 0x01#8 0x05#8 r₃ (-70) (1 / 10)) none, .flush 5]

def voted (r₁ r₂ r₃ : String) : List Emission :=
  ((Fusion.fresh {} none).run (votedRun r₁ r₂ r₃)).2

theorem run_votes_three :
    ∃ e ∈ voted "a" "b" "c", e.event.combined = true ∧
      ((new openConfig none).consider true e.event 5).2.decision.inject = true ∧
      ∃ e' ∈ voted "a" "b" "c", (∃ saw, e.event = { e'.event with plm_saw_it := saw }) ∧
        openConfig.min_combined_receivers ≤ (e'.bucket.receiverCount : ℤ) := by
  obtain ⟨e, he, hcombined, hinject⟩ : ∃ e ∈ voted "a" "b" "c", e.event.combined = true ∧
      ((new openConfig none).consider true e.event 5).2.decision.inject = true := by
    decide +kernel
  have hfeeds : Feeds (voted "a" "b" "c") [.consider true e.event 5] := by
    intro enabled event now hmem
    simp only [List.mem_singleton, Op.consider.injEq] at hmem
    exact ⟨e, he, e.event.plm_saw_it, hmem.2.1⟩
  exact ⟨e, he, hcombined, hinject, run_votes {} none (votedRun "a" "b" "c") openConfig none _
    hfeeds (by decide +kernel) [] true e.event 5 [] rfl hinject hcombined⟩

/-- Three copies from one receiver pass for three receivers. -/
theorem votedRun_one_receiver :
    ∃ e ∈ voted "a" "a" "a", e.event.combined = true ∧
      ((new openConfig none).consider true e.event 5).2.decision.inject = true ∧
      e.bucket.receiverCount = 1 ∧ e.event.heardBy = 1 := by
  decide +kernel

end Injector

end InsteonRf
