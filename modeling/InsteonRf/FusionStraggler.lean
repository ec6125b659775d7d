import InsteonRf.FusionInvariants

/-!
# Stragglers

What a run emits does not depend on the counters: states that agree on the rest
emit the same events. A copy that is only counted therefore leaves no trace in
any later event.
-/
namespace InsteonRf
open OrderedDict Selection

/-- Two states that differ in their counters at most. -/
structure Fusion.SameBuckets (f g : Fusion) : Prop where
  cfg : f.cfg = g.cfg
  skew : f.skew = g.skew
  openBuckets : f.openBuckets = g.openBuckets
  ready : f.ready = g.ready
  closed : f.closed = g.closed

namespace Fusion
namespace SameBuckets

variable {f g : Fusion}

theorem correct (h : SameBuckets f g) (s : Sighting) : f.correct s = g.correct s := by
  rw [Fusion.correct, Fusion.correct, h.skew]

theorem noteLag (h : SameBuckets f g) (s t : Sighting) (arrived : Option Time) :
    SameBuckets (f.noteLag s arrived) (g.noteLag t arrived) := by
  cases arrived <;> exact ⟨h.cfg, h.skew, h.openBuckets, h.ready, h.closed⟩

theorem group (h : SameBuckets f g) (key : Key) (s : Sighting) :
    SameBuckets (f.group key s) (g.group key s) := by
  have hnear : f.nearest s = g.nearest s := by rw [nearest, nearest, h.cfg, h.openBuckets]
  rw [Fusion.group, Fusion.group, h.cfg, hnear, h.openBuckets]
  cases if g.cfg.allow_combine = true then g.nearest s else none with
  | none => exact ⟨rfl, h.skew, rfl, h.ready, h.closed⟩
  | some e => exact ⟨rfl, h.skew, rfl, h.ready, h.closed⟩

theorem place (h : SameBuckets f g) (s : Sighting) : SameBuckets (f.place s) (g.place s) := by
  have hlate : f.isStraggler s.key s = g.isStraggler s.key s := by
    rw [isStraggler, isStraggler, h.closed, h.cfg]
  rw [Fusion.place, Fusion.place, hlate, h.openBuckets, h.cfg]
  cases g.openBuckets.get s.key with
  | none =>
      by_cases hs : g.isStraggler s.key s = true
      · simp only [hs, if_true]
        exact ⟨h.cfg, h.skew, h.openBuckets, h.ready, h.closed⟩
      · simp only [hs]
        exact h.group s.key s
  | some b =>
      by_cases hacc : b.accepts g.cfg s.when = true
      · simp only [hacc, if_true]
        exact ⟨rfl, h.skew, rfl, h.ready, h.closed⟩
      · simp only [hacc]
        refine SameBuckets.group ?_ s.key s
        exact ⟨h.cfg, h.skew, by simp only [retire, h.openBuckets], by simp only [retire, h.ready],
          h.closed⟩

theorem finish (h : SameBuckets f g) (b : Bucket) (now : Time) (event : FusedEvent) :
    (f.finish b now event).2 = (g.finish b now event).2 ∧
      SameBuckets (f.finish b now event).1 (g.finish b now event).1 := by
  simp only [Fusion.finish, h.closed, h.skew]
  exact ⟨trivial, h.cfg, rfl, h.openBuckets, h.ready, rfl⟩

theorem emitDamaged {st st' : EmitState} (h : SameBuckets st.1 st'.1) (hout : st.2 = st'.2)
    (now : Time) (b : Bucket) :
    SameBuckets (Fusion.emitDamaged now st b).1 (Fusion.emitDamaged now st' b).1 ∧
      (Fusion.emitDamaged now st b).2 = (Fusion.emitDamaged now st' b).2 := by
  obtain ⟨f, pending, out⟩ := st
  obtain ⟨g, pending', out'⟩ := st'
  obtain ⟨rfl, rfl⟩ := Prod.mk.inj hout
  replace h : SameBuckets f g := h
  have halone := h.finish b now (b.build g.cfg.allow_combine)
  have hhome : ∀ key, f.home pending b key = g.home pending b key := by
    intro key
    rw [home, home, h.cfg, h.openBuckets, h.closed]
  simp only [Fusion.emitDamaged, h.cfg, hhome, halone.1]
  split
  · split
    · exact ⟨⟨rfl, h.skew, h.openBuckets, h.ready, h.closed⟩, rfl⟩
    · exact ⟨⟨rfl, h.skew, by simp only [h.openBuckets], h.ready, h.closed⟩, rfl⟩
    · obtain ⟨hcfg, hskew, hopen, hready, hclosed⟩ := List.foldl_rel (l := b.sightings)
        (f := Fusion.countLate) (g := Fusion.countLate) (r := SameBuckets) h
        fun s _ f g hfg => ⟨hfg.cfg, hfg.skew, hfg.openBuckets, hfg.ready, hfg.closed⟩
      exact ⟨⟨hcfg, hskew, hopen, hready, hclosed⟩, rfl⟩
    · exact ⟨halone.2, rfl⟩
  · exact ⟨halone.2, rfl⟩

theorem emit (h : SameBuckets f g) (done : List Bucket) (now : Time) :
    (f.emit done now).2 = (g.emit done now).2 ∧
      SameBuckets (f.emit done now).1 (g.emit done now).1 := by
  have hdamaged : ∀ (bs : List Bucket) (st st' : EmitState),
      SameBuckets st.1 st'.1 ∧ st.2 = st'.2 →
      SameBuckets (bs.foldl (Fusion.emitDamaged now) st).1
          (bs.foldl (Fusion.emitDamaged now) st').1 ∧
        (bs.foldl (Fusion.emitDamaged now) st).2 = (bs.foldl (Fusion.emitDamaged now) st').2 := by
    intro bs st st' hst
    apply List.foldl_rel (r := fun u v : EmitState => SameBuckets u.1 v.1 ∧ u.2 = v.2) hst
    intro b _ u v huv
    exact emitDamaged huv.1 huv.2 now b
  have hpending : ∀ (bs : List Bucket) (st st' : Fusion × List Emission),
      SameBuckets st.1 st'.1 ∧ st.2 = st'.2 →
      SameBuckets (bs.foldl (emitPending now) st).1 (bs.foldl (emitPending now) st').1 ∧
        (bs.foldl (emitPending now) st).2 = (bs.foldl (emitPending now) st').2 := by
    intro bs st st' hst
    apply List.foldl_rel
      (r := fun u v : Fusion × List Emission => SameBuckets u.1 v.1 ∧ u.2 = v.2) hst
    intro b _ u v huv
    have hfin := huv.1.finish b now (b.build v.1.cfg.allow_combine)
    constructor
    · rw [emitPending, emitPending, huv.1.cfg]
      exact hfin.2
    · simp only [emitPending, huv.1.cfg, huv.2, hfin.1]
  obtain ⟨hloop, hrest⟩ := hdamaged
    ((sortOn Bucket.opened done).filter (fun b => !b.hasGood))
    (f, (sortOn Bucket.opened done).filter Bucket.hasGood, [])
    (g, (sortOn Bucket.opened done).filter Bucket.hasGood, []) ⟨h, rfl⟩
  rw [← emitLoop, ← emitLoop] at hloop hrest
  obtain ⟨hlast, hout⟩ := hpending (emitLoop g done now).2.1
    ((emitLoop f done now).1, (emitLoop g done now).2.2)
    ((emitLoop g done now).1, (emitLoop g done now).2.2) ⟨hloop, rfl⟩
  rw [emit_eq, emit_eq, hrest]
  exact ⟨by rw [hout], hlast⟩

theorem step (h : SameBuckets f g) (op : Op) :
    (f.step op).2 = (g.step op).2 ∧ SameBuckets (f.step op).1 (g.step op).1 := by
  cases op with
  | add s arrived =>
      refine ⟨rfl, ?_⟩
      change SameBuckets (f.add s arrived) (g.add s arrived)
      rw [add, add, h.correct s]
      exact (h.noteLag _ _ arrived).place _
  | popReady now =>
      simp only [Fusion.step, popReady, forgetOld, h.cfg, h.openBuckets, h.ready, h.closed]
      exact SameBuckets.emit (by exact ⟨rfl, h.skew, rfl, rfl, rfl⟩) _ now
  | flush now =>
      simp only [Fusion.step, flush, h.openBuckets, h.ready]
      exact SameBuckets.emit (by exact ⟨h.cfg, h.skew, rfl, rfl, h.closed⟩) _ now

/-- States that differ in their counters emit the same events in every run. -/
theorem run (h : SameBuckets f g) (ops : List Op) : (f.run ops).2 = (g.run ops).2 := by
  obtain ⟨hout, -⟩ := Machine.run_related (R := SameBuckets) (fun _ _ op hs => hs.step op) h ops
  rw [Fusion.run, Fusion.run, hout]

end SameBuckets

/-- Adding the sighting leaves every bucket as it is, counts one late copy of its
receiver, and changes nothing in what any continuation emits. -/
structure StragglerLaw (f : Fusion) (s : Sighting) (arrived : Option Time) : Prop where
  openBuckets : (f.add s arrived).openBuckets = f.openBuckets
  ready : (f.add s arrived).ready = f.ready
  late : ∀ r, (f.add s arrived).late.count r = f.late.count r + if r = s.receiver then 1 else 0
  emits : ∀ ops, ((f.add s arrived).run ops).2 = (f.run ops).2

theorem stragglerLaw_of_late {f : Fusion} {s : Sighting} {arrived : Option Time}
    (h : f.add s arrived = (f.noteLag (f.correct s) arrived).countLate (f.correct s)) :
    StragglerLaw f s arrived := by
  obtain ⟨-, -, hopen, hready, -, hlate⟩ := noteLag_fields f (f.correct s) arrived
  have hsame : SameBuckets (f.add s arrived) f := by
    rw [h]
    obtain ⟨hcfg, hskew, hopen, hready, hclosed, -⟩ := noteLag_fields f (f.correct s) arrived
    exact ⟨hcfg, hskew, hopen, hready, hclosed⟩
  refine ⟨hsame.openBuckets, hsame.ready, ?_, hsame.run⟩
  intro r
  rw [h, countLate, hlate, Dict.count_bump, correct_receiver]

/-- A late copy with a matching CRC of an emitted message, which no bucket filed under
its key accepts, obeys the law exactly when there is no bucket under that key. -/
theorem stragglerLaw_iff (f : Fusion) (s : Sighting) (arrived : Option Time) (seen : ClosedKey)
    (hgood : (f.correct s).good = true) (hseen : f.closed.get (f.correct s).key = some seen)
    (hfirst : seen.first - f.cfg.window_s ≤ (f.correct s).when)
    (hlast : (f.correct s).when ≤ seen.last + f.cfg.window_s)
    (hfiling : f.filing (f.correct s) = none) :
    StragglerLaw f s arrived ↔ f.openBuckets.get (f.correct s).key = none := by
  obtain ⟨hcfg, -, hopen, hready, hclosed, -⟩ := noteLag_fields f (f.correct s) arrived
  constructor
  · intro hlaw
    by_contra hsome
    obtain ⟨b, hb⟩ := Option.ne_none_iff_exists'.mp hsome
    have hacc : b.accepts f.cfg (f.correct s).when = false := by
      by_contra hacc
      have hfiled := filing_eq_some.mpr ⟨hb, by simpa using hacc⟩
      rw [hfiling] at hfiled
      cases hfiled
    have hadd : (f.add s arrived).ready = f.ready ++ [b] := by
      rw [add, place, hopen, hb]
      simp only [hcfg, hacc, Bool.false_eq_true, if_false, group_ready]
      simp only [retire, hready]
    have hlen := congrArg List.length (hadd.symm.trans hlaw.ready)
    simp at hlen
  · intro hnone
    apply stragglerLaw_of_late
    have hlate : (f.noteLag (f.correct s) arrived).isStraggler (f.correct s).key (f.correct s) =
        true := by
      simp [isStraggler, hclosed, hseen, hcfg, hgood, hfirst, hlast]
    rw [add, place, hopen, hnone]
    simp only [hlate, if_true]

/-- After one message was heard and emitted. -/
def emitted : Fusion :=
  ((fresh {} none).run [.add (commandCopy 0x01#8 0x35#8 "a" (-80) 0) none, .popReady 10]).1

/-- A copy of that message a tenth of a second into it. -/
def lateCopy : Sighting := commandCopy 0x01#8 0x35#8 "b" (-70) (1 / 10)

theorem stragglerLaw_iff_emitted :
    StragglerLaw emitted lateCopy none ↔
      emitted.openBuckets.get (emitted.correct lateCopy).key = none :=
  stragglerLaw_iff emitted lateCopy none ⟨10, 0, 0, 0⟩ (by decide +kernel) (by decide +kernel)
    (by decide +kernel) (by decide +kernel) (by decide +kernel)

/-- After a retransmission has opened the key again. -/
def reopened : Fusion :=
  ((fresh {} none).run [.add (commandCopy 0x01#8 0x35#8 "a" (-80) 0) none, .popReady 10,
    .add (commandCopy 0x01#8 0x35#8 "a" (-80) 12) none]).1

/-- There the late copy ends the retransmission's bucket and becomes an event itself. -/
theorem stragglerLaw_reopened :
    (lateCopy.good = true ∧ reopened.closed.get lateCopy.key = some ⟨10, 0, 0, 0⟩ ∧
        0 - reopened.cfg.window_s ≤ lateCopy.when ∧ lateCopy.when ≤ 0 + reopened.cfg.window_s ∧
        reopened.filing lateCopy = none) ∧
      (reopened.add lateCopy none).ready.length = reopened.ready.length + 1 ∧
      (reopened.add lateCopy none).late.count "b" = reopened.late.count "b" ∧
      (∃ e ∈ ((reopened.add lateCopy none).run [.flush 20]).2, "b" ∈ e.event.receivers.keys) ∧
      ¬ StragglerLaw reopened lateCopy none := by
  have hready : (reopened.add lateCopy none).ready.length = reopened.ready.length + 1 := by
    decide +kernel
  refine ⟨by decide +kernel, hready, by decide +kernel, by decide +kernel, ?_⟩
  intro hlaw
  rw [hlaw.ready] at hready
  omega

end Fusion

end InsteonRf
