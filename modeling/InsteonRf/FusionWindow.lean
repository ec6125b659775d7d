import InsteonRf.FusionInvariants

/-!
# The window cap

A bucket accepts copies from a window before its opening up to the cap after it. An early
copy moves the opening back, and a repaired bucket is folded in on the strength of when it
opened, so what keeps an event inside the cap is a condition on the copies that join.
-/
namespace InsteonRf
open OrderedDict Selection

namespace Bucket

/-- No copy is later than the cap after the first. -/
def Capped (cfg : FusionConfig) (b : Bucket) : Prop := b.last ≤ b.opened + cfg.max_window_s

variable {cfg : FusionConfig}

theorem capped_new (hcap : 0 ≤ cfg.max_window_s) (key : Key) (s : Sighting) :
    (new key s).Capped cfg :=
  le_add_of_nonneg_right hcap

theorem when_le_of_accepts {b : Bucket} {w : Time} (h : b.accepts cfg w = true) :
    w ≤ b.opened + cfg.max_window_s :=
  (of_decide_eq_true h).2.trans (min_le_right _ _)

/-- An accepted copy keeps the cap exactly if the last copy is within it, too. -/
theorem capped_add_iff (hcap : 0 ≤ cfg.max_window_s) {b : Bucket} {s : Sighting} (h : b.Capped cfg)
    (hacc : b.accepts cfg s.when = true) :
    (b.add s).Capped cfg ↔ b.last ≤ s.when + cfg.max_window_s := by
  change max b.last s.when ≤ min b.opened s.when + cfg.max_window_s ↔ _
  rw [max_le_iff, min_add, le_min_iff, le_min_iff]
  constructor
  · exact fun hall => hall.1.2
  · exact fun hlast => ⟨⟨h, hlast⟩, when_le_of_accepts hacc, le_add_of_nonneg_right hcap⟩

theorem span_addAll {b : Bucket} {ss : List Sighting} {lo hi : Time}
    (h : ∀ s ∈ ss, lo ≤ s.when ∧ s.when ≤ hi) :
    min b.opened lo ≤ (b.addAll ss).opened ∧ (b.addAll ss).last ≤ max b.last hi := by
  induction ss generalizing b with
  | nil => exact ⟨min_le_left _ _, le_max_left _ _⟩
  | cons s ss ih =>
      obtain ⟨hlo, hhi⟩ := h s List.mem_cons_self
      obtain ⟨hopened, hlast⟩ := ih (b := b.add s) fun t ht => h t (List.mem_cons_of_mem s ht)
      have hmin : min b.opened lo ≤ min (b.add s).opened lo :=
        le_min (le_min (min_le_left _ _) ((min_le_right _ _).trans hlo)) (min_le_right _ _)
      have hmax : max (b.add s).last hi ≤ max b.last hi :=
        max_le (max_le (le_max_left _ _) (hhi.trans (le_max_right _ _))) (le_max_right _ _)
      exact ⟨hmin.trans hopened, hlast.trans hmax⟩

/-- A folded bucket keeps the cap if each of the two ends within it of the other's opening. -/
theorem capped_addAll {g b : Bucket} (hg : g.Capped cfg) (hb : b.Capped cfg)
    (hlate : g.last ≤ b.opened + cfg.max_window_s) (hearly : b.last ≤ g.opened + cfg.max_window_s) :
    (g.addAll b.sightings).Capped cfg := by
  obtain ⟨hopened, hlast⟩ := span_addAll (b := g) b.spans
  have hspan : max g.last b.last ≤ min g.opened b.opened + cfg.max_window_s := by
    rw [max_le_iff, min_add, le_min_iff, le_min_iff]
    exact ⟨⟨hg, hlate⟩, hearly, hb⟩
  exact hlast.trans (hspan.trans (add_le_add_left hopened _))

end Bucket

namespace Fusion

/-- Where the copy joins a bucket, the bucket's last copy is not past the cap after it. -/
def JoinsWithin (f : Fusion) (s : Sighting) : Prop :=
  ∀ b ∈ f.joins s, b.last ≤ s.when + f.cfg.max_window_s

/-- Where the bucket is folded, neither of the two ends past the cap after the other's
opening. -/
def FoldsWithin (cfg : FusionConfig) (st : EmitState) (b : Bucket) : Prop :=
  ∀ g ∈ st.1.homeBucket st.2.1 b,
    g.last ≤ b.opened + cfg.max_window_s ∧ b.last ≤ g.opened + cfg.max_window_s

/-- The copies that join a bucket in this step leave it within the cap. -/
def WithinCap (f : Fusion) : Op → Prop
  | .add s _ => f.JoinsWithin (f.correct s)
  | op => ∀ call ∈ f.ending op, Machine.Admitted (turn call.now) (FoldsWithin f.cfg)
      (emitStart call.left call.done) (damaged call.done)

theorem foldsKeep_capped {cfg : FusionConfig} {call : Ending}
    (h : Machine.Admitted (turn call.now) (FoldsWithin cfg) (emitStart call.left call.done)
      (damaged call.done)) : FoldsKeep (Bucket.Capped cfg) call := by
  apply h.imp
  intro st b hwithin g hhome hg hb
  obtain ⟨hlate, hearly⟩ := hwithin g hhome
  exact Bucket.capped_addAll hg hb hlate hearly

theorem step_capped {f : Fusion} {op : Op} (hcap : 0 ≤ f.cfg.max_window_s) (hwithin : f.WithinCap op)
    (h : ∀ b ∈ f.buckets, b.Capped f.cfg) :
    (∀ b ∈ (f.step op).1.buckets, b.Capped f.cfg) ∧
      ∀ e ∈ (f.step op).2, e.bucket.Capped f.cfg ∧ e.Built f.cfg := by
  cases op with
  | add s arrived =>
      refine ⟨add_rule arrived (Bucket.capped_new hcap _ _) ?_ h, by simp [step]⟩
      intro b hb hcapped
      exact (Bucket.capped_add_iff hcap hcapped (joins_cases hb).1).mpr (hwithin b hb)
  | popReady now => exact ending_rule (.popReady now) rfl (foldsKeep_capped (hwithin _ rfl)) h
  | flush now => exact ending_rule (.flush now) rfl (foldsKeep_capped (hwithin _ rfl)) h

theorem run_buckets_capped {f : Fusion} (hcap : 0 ≤ f.cfg.max_window_s)
    (h : ∀ b ∈ f.buckets, b.Capped f.cfg) {ops : List Op}
    (hwithin : Machine.Admitted step WithinCap f ops) :
    (∀ b ∈ (f.run ops).1.buckets, b.Capped f.cfg) ∧
      ∀ e ∈ (f.run ops).2, e.bucket.Capped f.cfg ∧ e.Built f.cfg := by
  induction ops generalizing f with
  | nil => exact ⟨h, by simp⟩
  | cons op ops ih =>
      obtain ⟨hstep, hout⟩ := step_capped hcap hwithin.1 h
      have hnext := ih (f := (f.step op).1)
      rw [step_cfg] at hnext
      obtain ⟨hrun, hrest⟩ := hnext hcap hstep hwithin.2
      refine ⟨hrun, ?_⟩
      intro e he
      rw [run_cons] at he
      exact (List.mem_append.mp he).elim (hout e) (hrest e)

/-- In a run whose steps keep to the cap no event is longer than it. -/
theorem run_capped (cfg : FusionConfig) (skew : Option ClockSkew) (ops : List Op)
    (hcap : 0 ≤ cfg.max_window_s)
    (hwithin : Machine.Admitted step WithinCap (fresh cfg skew) ops) :
    ∀ e ∈ ((fresh cfg skew).run ops).2,
      e.event.last_seen - e.event.first_seen ≤ cfg.max_window_s := by
  intro e he
  obtain ⟨hcapped, hbuilt⟩ := (run_buckets_capped (f := fresh cfg skew) hcap (by simp) hwithin).2 e he
  rw [hbuilt.last_seen, hbuilt.first_seen, sub_le_iff_le_add']
  exact hcapped

instance (cfg : FusionConfig) (st : EmitState) (b : Bucket) : Decidable (FoldsWithin cfg st b) :=
  inferInstanceAs (Decidable (∀ g ∈ st.1.homeBucket st.2.1 b, _))

instance decidableWithinCap (f : Fusion) : ∀ op, Decidable (f.WithinCap op)
  | .add s _ => inferInstanceAs (Decidable (∀ b ∈ f.joins (f.correct s), b.last ≤ _))
  | .popReady now => inferInstanceAs (Decidable (∀ call ∈ f.ending (.popReady now), _))
  | .flush now => inferInstanceAs (Decidable (∀ call ∈ f.ending (.flush now), _))

def copiesAt (times : List Time) : List Op :=
  times.map (fun t => .add (commandCopy 0x01#8 0x35#8 "a" (-80) t) none) ++ [.flush 9]

theorem run_capped_inOrder :
    ((fresh {} none).run (copiesAt [1, 3/2, 2, 5/2, 3])).2.map
        (fun e => (e.event.first_seen, e.event.last_seen)) = [(1, 3)] ∧
      ∀ e ∈ ((fresh {} none).run (copiesAt [1, 3/2, 2, 5/2, 3])).2,
        e.event.last_seen - e.event.first_seen ≤ 2 :=
  ⟨by decide +kernel,
    run_capped {} none (copiesAt [1, 3/2, 2, 5/2, 3]) (by decide) (by decide +kernel)⟩

/-- After copies over the whole cap, one from before the first still joins them. -/
theorem earlyCopy_overruns :
    ((fresh {} none).run (copiesAt [1, 3/2, 2, 5/2, 3, 1/2])).2.map
        (fun e => (e.event.first_seen, e.event.last_seen)) = [(1/2, 3)] ∧
      ¬ ∀ (cfg : FusionConfig) skew ops, 0 ≤ cfg.window_s → cfg.window_s ≤ cfg.max_window_s →
        ∀ e ∈ ((fresh cfg skew).run ops).2,
          e.event.last_seen - e.event.first_seen ≤ cfg.max_window_s := by
  have hlong : ∃ e ∈ ((fresh {} none).run (copiesAt [1, 3/2, 2, 5/2, 3, 1/2])).2,
      ¬ e.event.last_seen - e.event.first_seen ≤ 2 := by
    decide +kernel
  refine ⟨by decide +kernel, ?_⟩
  intro hclaim
  obtain ⟨e, he, hover⟩ := hlong
  exact hover (hclaim {} none _ (by decide +kernel) (by decide +kernel) e he)

end Fusion

end InsteonRf
