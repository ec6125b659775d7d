import InsteonRf.FusionInvariants

/-!
# One bucket for one message

The verified copies of a message stay together as long as the first of them is
filed under its own key and no copy with that key is refused by the bucket that
holds them. A run of arrivals then keeps them in the bucket filed under the key,
and flushing builds one event from it.
-/
namespace InsteonRf
open OrderedDict Selection

def Sighting.confirms (key : Key) (s : Sighting) : Bool := s.verified && decide (s.key = key)

def Bucket.confirmed (key : Key) (b : Bucket) : List Sighting :=
  b.sightings.filter (Sighting.confirms key)

namespace Bucket

@[simp] theorem confirmed_add (key : Key) (b : Bucket) (s : Sighting) :
    (b.add s).confirmed key = b.confirmed key ++ [s].filter (Sighting.confirms key) := by
  simp [confirmed]

theorem confirmed_new (key k : Key) (s : Sighting) :
    (new k s).confirmed key = [s].filter (Sighting.confirms key) := rfl

theorem confirmed_addAll (key : Key) (g : Bucket) {b : Bucket} (h : b.hasGood = false) :
    (g.addAll b.sightings).confirmed key = g.confirmed key := by
  have hnone : b.sightings.filter (Sighting.confirms key) = [] := by
    apply List.filter_eq_nil_iff.mpr
    intro s hs hconf
    have hgood := Sighting.good_of_verified (Bool.and_eq_true_iff.mp hconf).1
    rw [good_false_of_mem h hs] at hgood
    cases hgood
  rw [confirmed, sightings_addAll, List.filter_append, hnone, List.append_nil]
  rfl

theorem hasGood_of_confirmed {key : Key} {b : Bucket} (h : b.confirmed key ≠ []) :
    b.hasGood = true := by
  obtain ⟨s, hs⟩ := List.exists_mem_of_ne_nil _ h
  obtain ⟨hmem, hconf⟩ := List.mem_filter.mp hs
  exact b.hasGood_iff.mpr
    ⟨s, hmem, Sighting.good_of_verified (Bool.and_eq_true_iff.mp hconf).1⟩

/-- A bucket accepts what lies within a window of one of its copies, up to its cap. -/
theorem accepts_of_window {cfg : FusionConfig} (hext : 0 ≤ cfg.extend_s) {b : Bucket}
    {t : Sighting} (ht : t ∈ b.sightings) {w : Time} (hbefore : t.when ≤ w + cfg.window_s)
    (hafter : w ≤ t.when + cfg.window_s) (hcap : w ≤ b.opened + cfg.max_window_s) :
    b.accepts cfg w = true := by
  obtain ⟨hopened, hlast⟩ := b.spans t ht
  have hlen : (1 : ℚ) ≤ b.sightings.length := by
    exact_mod_cast List.length_pos_of_ne_nil b.nonempty
  have hslack : 0 ≤ cfg.extend_s * ((b.sightings.length : ℚ) - 1) :=
    mul_nonneg hext (by linarith)
  have hdeadline : w ≤ b.deadline cfg := le_min (by linarith) hcap
  exact decide_eq_true ⟨by linarith, hdeadline⟩

end Bucket

namespace Fusion

/-- What a copy of the message has to meet: a verified one that no bucket takes by
its key is taken by none for its similarity; and of the bucket that holds the
verified copies, a verified one does not pass the cap, and another is accepted. -/
def MeetsOwn (key : Key) (f : Fusion) : Op → Prop
  | .add s _ => s.key = key →
      (s.verified = true → f.filing s = none → f.cfg.allow_combine = true → f.nearest s = none) ∧
      ∀ b ∈ f.openBuckets.get key, b.confirmed key ≠ [] →
        (s.verified = true → s.when ≤ b.opened + f.cfg.max_window_s) ∧
        (s.verified = false → b.accepts f.cfg s.when = true)
  | _ => True

instance (key : Key) (f : Fusion) : (op : Op) → Decidable (MeetsOwn key f op)
  | .add s _ => inferInstanceAs (Decidable (s.key = key →
      (s.verified = true → f.filing s = none → f.cfg.allow_combine = true → f.nearest s = none) ∧
      ∀ b ∈ f.openBuckets.get key, b.confirmed key ≠ [] →
        (s.verified = true → s.when ≤ b.opened + f.cfg.max_window_s) ∧
        (s.verified = false → b.accepts f.cfg s.when = true)))
  | .popReady _ => isTrue trivial
  | .flush _ => isTrue trivial

/-- The verified copies given so far: none is in a bucket, or all are in the bucket
filed under their key. -/
structure Together (key : Key) (given : List Sighting) (f : Fusion) : Prop where
  absent : given = [] → ∀ b ∈ f.buckets, b.confirmed key = []
  filed : given ≠ [] → ∃ b, f.openBuckets.get key = some b ∧ b.confirmed key = given

/-- A bucket that refuses a sighting plays no part in the search. -/
theorem nearest_retire {f : Fusion} {key : Key} {b : Bucket} {s : Sighting}
    (hget : f.openBuckets.get key = some b) (hacc : b.accepts f.cfg s.when = false) :
    (f.retire key b).nearest s = f.nearest s := by
  have hskip : ∀ (best : Option (Key × Bucket) × ℕ), ∀ e ∈ f.openBuckets.items,
      (if decide (e.1 ≠ key) = true then nearer f.cfg s best e else best) =
        nearer f.cfg s best e := by
    intro best e he
    by_cases hk : e.1 = key
    · have he2 : e.2 = b := by
        have hgot := Dict.get_eq_some_iff.mpr (show (key, e.2) ∈ f.openBuckets.items from hk ▸ he)
        exact Option.some.inj (hgot.symm.trans hget)
      rw [if_neg (by simp [hk]), nearer, he2]
      simp [hacc]
    · rw [if_pos (by simpa using hk)]
  rw [nearest, nearest]
  congr 1
  simp only [retire, Dict.erase, Dict.filter, List.foldl_filter]
  exact List.foldl_ext _ _ _ (fun best e he => hskip best e he)

theorem mem_buckets_group {f : Fusion} {key : Key} {s : Sighting} {c : Bucket}
    (h : c ∈ (f.group key s).buckets) :
    c ∈ f.buckets ∨ (∃ b ∈ f.buckets, c = b.add s) ∨ c = Bucket.new key s := by
  have hopen : ∀ b ∈ f.openBuckets.values, b ∈ f.buckets :=
    fun b hb => List.mem_append_left _ hb
  rcases f.group_cases key s with ⟨slot, b, -, hn, hst⟩ | ⟨-, hst⟩ <;> rw [hst] at h
  · rcases List.mem_append.mp h with hvals | hready
    · rcases Dict.mem_values_set hvals with rfl | hold
      · exact Or.inr (Or.inl ⟨b, hopen b (Dict.mem_values_of_get (nearest_spec hn).1), rfl⟩)
      · exact Or.inl (hopen c (Dict.mem_values_erase hold))
    · exact Or.inl (List.mem_append_right _ hready)
  · rcases List.mem_append.mp h with hvals | hready
    · rcases Dict.mem_values_set hvals with rfl | hold
      · exact Or.inr (Or.inr rfl)
      · exact Or.inl (hopen c (Dict.mem_values_erase hold))
    · exact Or.inl (List.mem_append_right _ hready)

/-- Every bucket after an arrival was there, took the sighting, or was opened by it. -/
theorem mem_buckets_place {f : Fusion} {s : Sighting} {c : Bucket}
    (h : c ∈ (f.place s).buckets) :
    c ∈ f.buckets ∨ (∃ b ∈ f.buckets, c = b.add s) ∨ c = Bucket.new s.key s := by
  rcases f.place_cases s with
    ⟨b, hb, hst⟩ | ⟨b, hget, -, hst⟩ | ⟨-, -, hst⟩ | ⟨-, -, hst⟩ <;> rw [hst] at h
  · rcases List.mem_append.mp h with hvals | hready
    · rcases Dict.mem_values_set hvals with rfl | hold
      · exact Or.inr (Or.inl ⟨b, List.mem_append_left _
          (Dict.mem_values_of_get (filing_eq_some.mp hb).1), rfl⟩)
      · exact Or.inl (List.mem_append_left _ (Dict.mem_values_erase hold))
    · exact Or.inl (List.mem_append_right _ hready)
  · have hretire : ∀ d ∈ (f.retire s.key b).buckets, d ∈ f.buckets := by
      intro d hd
      rcases List.mem_append.mp hd with hvals | hready
      · exact List.mem_append_left _ (Dict.mem_values_erase hvals)
      · rcases List.mem_append.mp hready with hold | hnew
        · exact List.mem_append_right _ hold
        · obtain rfl := List.mem_singleton.mp hnew
          exact List.mem_append_left _ (Dict.mem_values_of_get hget)
    rcases mem_buckets_group h with hold | ⟨d, hd, rfl⟩ | rfl
    · exact Or.inl (hretire c hold)
    · exact Or.inr (Or.inl ⟨d, hretire d hd, rfl⟩)
    · exact Or.inr (Or.inr rfl)
  · exact Or.inl h
  · exact mem_buckets_group h

theorem get_place_of_ne {f : Fusion} {key : Key} {b : Bucket} {s : Sighting}
    (hget : f.openBuckets.get key = some b) (hne : s.key ≠ key) :
    (f.place s).openBuckets.get key = some b ∨
      (f.place s).openBuckets.get key = some (b.add s) := by
  have hgroup : ∀ g : Fusion, g.openBuckets.get key = some b →
      (g.group s.key s).openBuckets.get key = some b ∨
        (g.group s.key s).openBuckets.get key = some (b.add s) := by
    intro g hg
    rcases g.group_cases s.key s with ⟨slot, c, -, hn, hst⟩ | ⟨-, hst⟩ <;> rw [hst]
    · by_cases hslot : slot = key
      · subst hslot
        obtain rfl := Option.some.inj ((nearest_spec hn).1.symm.trans hg)
        exact Or.inr (Dict.get_set_self _ _ _)
      · exact Or.inl ((Dict.get_set_of_ne _ (Ne.symm hslot) _).trans hg)
    · exact Or.inl ((Dict.get_set_of_ne _ (Ne.symm hne) _).trans hg)
  rcases f.place_cases s with
    ⟨c, -, hst⟩ | ⟨c, -, -, hst⟩ | ⟨-, -, hst⟩ | ⟨-, -, hst⟩ <;> rw [hst]
  · exact Or.inl ((Dict.get_set_of_ne _ (Ne.symm hne) _).trans hget)
  · exact hgroup _ ((Dict.get_erase_of_ne _ (Ne.symm hne)).trans hget)
  · exact Or.inl hget
  · exact hgroup f hget

theorem together_first {f : Fusion} {s : Sighting} (hclosed : f.closed = Dict.empty)
    (habsent : ∀ b ∈ f.buckets, b.confirmed s.key = []) (hver : s.verified = true)
    (hown : f.filing s = none → f.cfg.allow_combine = true → f.nearest s = none) :
    ∃ b, (f.place s).openBuckets.get s.key = some b ∧ b.confirmed s.key = [s] := by
  have hconf : [s].filter (Sighting.confirms s.key) = [s] := by simp [Sighting.confirms, hver]
  have hnew : ∀ g : Fusion, (g.cfg.allow_combine = true → g.nearest s = none) →
      ∃ b, (g.group s.key s).openBuckets.get s.key = some b ∧ b.confirmed s.key = [s] := by
    intro g hg
    rcases g.group_cases s.key s with ⟨slot, b, hallow, hn, -⟩ | ⟨-, hst⟩
    · rw [hg hallow] at hn
      cases hn
    · rw [hst]
      exact ⟨_, Dict.get_set_self _ _ _, by rw [Bucket.confirmed_new, hconf]⟩
  have hrefused : ∀ b, f.openBuckets.get s.key = some b → b.accepts f.cfg s.when = false →
      f.filing s = none := by
    intro b hget hacc
    rw [filing, hget]
    exact Option.filter_some_neg (by simp [hacc])
  rcases f.place_cases s with
    ⟨b, hb, hst⟩ | ⟨b, hget, hacc, hst⟩ | ⟨-, hlate, -⟩ | ⟨hnone, -, hst⟩
  · have hmem := Dict.mem_values_of_get (filing_eq_some.mp hb).1
    rw [hst]
    refine ⟨_, Dict.get_set_self _ _ _, ?_⟩
    rw [Bucket.confirmed_add, habsent b (List.mem_append_left _ hmem), hconf]
    rfl
  · rw [hst]
    exact hnew _ (fun hallow =>
      (nearest_retire hget hacc).trans (hown (hrefused b hget hacc) hallow))
  · rw [isStraggler, hclosed] at hlate
    simp at hlate
  · rw [hst]
    exact hnew f (hown (by rw [filing, hnone]; rfl))

/-- An arrival that meets its own bucket keeps the verified copies together. -/
theorem together_place {key : Key} {given : List Sighting} {f : Fusion} {s : Sighting}
    {arrived : Option Time} (hclosed : f.closed = Dict.empty) (hext : 0 ≤ f.cfg.extend_s)
    (hwindow : ∀ t ∈ given, s.confirms key = true →
      s.when ≤ t.when + f.cfg.window_s ∧ t.when ≤ s.when + f.cfg.window_s)
    (hmeets : MeetsOwn key f (.add s arrived)) (h : Together key given f) :
    Together key (given ++ [s].filter (Sighting.confirms key)) (f.place s) := by
  by_cases hgiven : given = []
  · subst hgiven
    have habsent := h.absent rfl
    by_cases hconf : s.confirms key = true
    · obtain ⟨hver, hkey⟩ := Bool.and_eq_true_iff.mp hconf
      obtain rfl := of_decide_eq_true hkey
      obtain ⟨b, hget, hb⟩ := together_first hclosed habsent hver ((hmeets rfl).1 hver)
      refine ⟨by simp [hconf], fun _ => ⟨b, hget, ?_⟩⟩
      rw [hb]
      simp [hconf]
    · refine ⟨?_, by simp [hconf]⟩
      intro _ c hc
      have hnone : [s].filter (Sighting.confirms key) = [] := by simp [hconf]
      rcases mem_buckets_place hc with hold | ⟨b, hb, rfl⟩ | rfl
      · exact habsent c hold
      · rw [Bucket.confirmed_add, habsent b hb, hnone]
        rfl
      · rw [Bucket.confirmed_new, hnone]
  · obtain ⟨b, hget, hb⟩ := h.filed hgiven
    refine ⟨by simp [hgiven], fun _ => ?_⟩
    by_cases hkey : s.key = key
    · subst hkey
      obtain ⟨-, hkeep⟩ := hmeets rfl
      obtain ⟨hcap, hother⟩ := hkeep b hget (by rw [hb]; exact hgiven)
      have hacc : b.accepts f.cfg s.when = true := by
        by_cases hver : s.verified = true
        · obtain ⟨t, ht⟩ := List.exists_mem_of_ne_nil _ hgiven
          obtain ⟨hafter, hbefore⟩ := hwindow t ht (by simp [Sighting.confirms, hver])
          have hmem : t ∈ b.sightings := (List.mem_filter.mp (hb ▸ ht)).1
          exact Bucket.accepts_of_window hext hmem hbefore hafter (hcap hver)
        · exact hother (by simpa using hver)
      rcases f.place_cases s with
        ⟨c, hc, hst⟩ | ⟨c, hget', hrefuse, -⟩ | ⟨hnone, -, -⟩ | ⟨hnone, -, -⟩
      · obtain rfl := Option.some.inj (hget.symm.trans (filing_eq_some.mp hc).1)
        rw [hst]
        exact ⟨_, Dict.get_set_self _ _ _, by rw [Bucket.confirmed_add, hb]⟩
      · obtain rfl := Option.some.inj (hget.symm.trans hget')
        rw [hacc] at hrefuse
        cases hrefuse
      · rw [hnone] at hget
        cases hget
      · rw [hnone] at hget
        cases hget
    · have hnone : [s].filter (Sighting.confirms key) = [] := by simp [Sighting.confirms, hkey]
      rw [hnone, List.append_nil]
      rcases get_place_of_ne hget hkey with hsame | hjoined
      · exact ⟨b, hsame, hb⟩
      · exact ⟨_, hjoined, by rw [Bucket.confirmed_add, hb, hnone, List.append_nil]⟩

/-- A run without output: sightings with their times of arrival. -/
def arrivals (adds : List (Sighting × Option Time)) : List Op := adds.map (fun a => .add a.1 a.2)

def verifiedCopies (key : Key) (adds : List (Sighting × Option Time)) : List Sighting :=
  (adds.map Prod.fst).filter (Sighting.confirms key)

theorem place_closed (f : Fusion) (s : Sighting) :
    (f.place s).closed = f.closed ∧ (f.place s).skew = f.skew := by
  have hgroup : ∀ g : Fusion, (g.group s.key s).closed = g.closed ∧
      (g.group s.key s).skew = g.skew := by
    intro g
    rcases g.group_cases s.key s with ⟨slot, b, -, -, h⟩ | ⟨-, h⟩ <;> rw [h] <;> exact ⟨rfl, rfl⟩
  rcases f.place_cases s with
    ⟨b, -, h⟩ | ⟨b, -, -, h⟩ | ⟨-, -, h⟩ | ⟨-, -, h⟩ <;> rw [h]
  · exact ⟨rfl, rfl⟩
  · exact hgroup _
  · exact ⟨rfl, rfl⟩
  · exact hgroup f

theorem step_add {f : Fusion} (hskew : f.skew = none) (s : Sighting) (arrived : Option Time) :
    (f.step (.add s arrived)).1 = (f.noteLag s arrived).place s := by
  rw [step, add, correct_of_skew_none hskew]

theorem skew_run {f : Fusion} (adds : List (Sighting × Option Time)) (hskew : f.skew = none) :
    (f.run (arrivals adds)).1.skew = none := by
  induction adds generalizing f with
  | nil => exact hskew
  | cons a adds ih =>
      apply ih (f := (f.step (.add a.1 a.2)).1)
      rw [step_add hskew, (place_closed _ _).2, (noteLag_fields f a.1 a.2).2.1, hskew]

theorem verifiedCopies_cons (key : Key) (s : Sighting) (arrived : Option Time)
    (adds : List (Sighting × Option Time)) :
    verifiedCopies key ((s, arrived) :: adds) =
      [s].filter (Sighting.confirms key) ++ verifiedCopies key adds := by
  rw [verifiedCopies, List.map_cons, ← List.singleton_append, List.filter_append]
  rfl

theorem verifiedCopies_append (key : Key) (early later : List (Sighting × Option Time)) :
    verifiedCopies key (early ++ later) = verifiedCopies key early ++ verifiedCopies key later := by
  rw [verifiedCopies, List.map_append, List.filter_append]
  rfl

theorem together_run {key : Key} {given : List Sighting} {f : Fusion}
    {adds : List (Sighting × Option Time)} (hskew : f.skew = none)
    (hclosed : f.closed = Dict.empty) (hext : 0 ≤ f.cfg.extend_s)
    (hwindow : ∀ s ∈ given ++ verifiedCopies key adds, ∀ t ∈ given ++ verifiedCopies key adds,
      s.when ≤ t.when + f.cfg.window_s)
    (ha : Machine.Admitted step (MeetsOwn key) f (arrivals adds)) (h : Together key given f) :
    Together key (given ++ verifiedCopies key adds) (f.run (arrivals adds)).1 := by
  induction adds generalizing f given with
  | nil => simpa [verifiedCopies, arrivals] using h
  | cons a adds ih =>
      obtain ⟨s, arrived⟩ := a
      obtain ⟨hcfg, hskew', hopen, hready, hclosed', -⟩ := noteLag_fields f s arrived
      have hadd := step_add hskew s arrived
      have hsplit := verifiedCopies_cons key s arrived adds
      have hnoted : Together key given (f.noteLag s arrived) := by
        refine ⟨?_, by rw [hopen]; exact h.filed⟩
        rw [buckets, hopen, hready]
        exact h.absent
      have hmeets : MeetsOwn key (f.noteLag s arrived) (.add s arrived) := by
        have hm := ha.1
        simp only [MeetsOwn, filing, nearest] at hm ⊢
        rw [hopen, hcfg]
        exact hm
      have hstep := together_place (hclosed'.trans hclosed) (by rw [hcfg]; exact hext) ?_ hmeets
        hnoted
      · rw [← hadd] at hstep
        obtain ⟨hcl, hsk⟩ := place_closed (f.noteLag s arrived) s
        rw [hsplit, ← List.append_assoc] at hwindow ⊢
        refine ih ?_ ?_ ?_ ?_ ha.2 hstep
        · rw [hadd, hsk, hskew', hskew]
        · rw [hadd, hcl, hclosed', hclosed]
        · rw [step_cfg]
          exact hext
        · rw [step_cfg]
          exact hwindow
      · intro t ht hconf
        have hs : s ∈ given ++ verifiedCopies key ((s, arrived) :: adds) := by
          rw [hsplit]
          simp [hconf]
        have ht' := List.mem_append_left (verifiedCopies key ((s, arrived) :: adds)) ht
        rw [hcfg]
        exact ⟨hwindow s hs t ht', hwindow t ht' s hs⟩

theorem kept_group {f : Fusion} {key : Key} (hkey : f.openBuckets.get key = none) (s : Sighting)
    {b : Bucket} (hb : b ∈ f.buckets) :
    b ∈ (f.group key s).buckets ∨ b.add s ∈ (f.group key s).buckets := by
  rcases List.mem_append.mp hb with hopen | hready
  · obtain ⟨k, hk⟩ := Dict.exists_get_of_mem_values hopen
    rcases f.group_cases key s with ⟨slot, c, -, hn, hst⟩ | ⟨-, hst⟩ <;> rw [hst]
    · by_cases hslot : k = slot
      · subst hslot
        obtain rfl := Option.some.inj (hk.symm.trans (nearest_spec hn).1)
        exact Or.inr (List.mem_append_left _ (Dict.mem_values_of_get (Dict.get_set_self _ _ _)))
      · exact Or.inl (List.mem_append_left _ (Dict.mem_values_set_of_ne hk hslot))
    · have hne : k ≠ key := by
        rintro rfl
        rw [hk] at hkey
        cases hkey
      exact Or.inl (List.mem_append_left _ (Dict.mem_values_set_of_ne hk hne))
  · refine Or.inl (List.mem_append_right _ ?_)
    rw [group_ready]
    exact hready

theorem kept_retire {f : Fusion} {key : Key} {b c : Bucket}
    (hget : f.openBuckets.get key = some c) (hb : b ∈ f.buckets) : b ∈ (f.retire key c).buckets := by
  rcases List.mem_append.mp hb with hopen | hready
  · obtain ⟨k, hk⟩ := Dict.exists_get_of_mem_values hopen
    by_cases hkey : k = key
    · subst hkey
      obtain rfl := Option.some.inj (hk.symm.trans hget)
      exact List.mem_append_right _ (List.mem_append_right _ (List.mem_singleton_self b))
    · exact List.mem_append_left _
        (Dict.mem_values_of_get ((Dict.get_erase_of_ne _ hkey).trans hk))
  · exact List.mem_append_right _ (List.mem_append_left _ hready)

/-- An arrival keeps every bucket, at most with the sighting added. -/
theorem kept_place {f : Fusion} (s : Sighting) {b : Bucket} (hb : b ∈ f.buckets) :
    b ∈ (f.place s).buckets ∨ b.add s ∈ (f.place s).buckets := by
  rcases f.place_cases s with
    ⟨c, hc, hst⟩ | ⟨c, hget, -, hst⟩ | ⟨-, -, hst⟩ | ⟨hnone, -, hst⟩ <;> rw [hst]
  · rcases List.mem_append.mp hb with hopen | hready
    · obtain ⟨k, hk⟩ := Dict.exists_get_of_mem_values hopen
      by_cases hkey : k = s.key
      · subst hkey
        obtain rfl := Option.some.inj (hk.symm.trans (filing_eq_some.mp hc).1)
        exact Or.inr (List.mem_append_left _ (Dict.mem_values_of_get (Dict.get_set_self _ _ _)))
      · exact Or.inl (List.mem_append_left _ (Dict.mem_values_set_of_ne hk hkey))
    · exact Or.inl (List.mem_append_right _ hready)
  · exact kept_group (Dict.get_erase_self _ _) s (kept_retire hget hb)
  · exact Or.inl hb
  · exact kept_group hnone s hb

/-- Copies that are none of the message's verified ones leave those together. -/
theorem confirmed_run {key : Key} {given : List Sighting} {f : Fusion}
    {adds : List (Sighting × Option Time)} (hskew : f.skew = none)
    (hnone : verifiedCopies key adds = []) (h : ∃ b ∈ f.buckets, b.confirmed key = given) :
    ∃ b ∈ (f.run (arrivals adds)).1.buckets, b.confirmed key = given := by
  induction adds generalizing f with
  | nil => exact h
  | cons a adds ih =>
      obtain ⟨s, arrived⟩ := a
      rw [verifiedCopies_cons, List.append_eq_nil_iff] at hnone
      obtain ⟨hother, hrest⟩ := hnone
      obtain ⟨b, hb, hconf⟩ := h
      obtain ⟨-, hskew', hopen, hready, -, -⟩ := noteLag_fields f s arrived
      have hnoted : b ∈ (f.noteLag s arrived).buckets := by
        rw [buckets, hopen, hready]
        exact hb
      refine ih (f := (f.step (.add s arrived)).1) ?_ hrest ?_
      · rw [step_add hskew, (place_closed _ s).2, hskew', hskew]
      · rw [step_add hskew]
        rcases kept_place s hnoted with hsame | hjoined
        · exact ⟨b, hsame, hconf⟩
        · exact ⟨b.add s, hjoined, by rw [Bucket.confirmed_add, hother, List.append_nil, hconf]⟩

theorem pending_emitDamaged_foldl {key : Key} {given : List Sighting} (now : Time)
    {bs : List Bucket} (hbs : ∀ b ∈ bs, b.hasGood = false) {st : EmitState}
    (h : ∃ g ∈ st.2.1, g.confirmed key = given) :
    ∃ g ∈ (bs.foldl (emitDamaged now) st).2.1, g.confirmed key = given := by
  induction bs generalizing st with
  | nil => exact h
  | cons b bs ih =>
      apply ih (fun c hc => hbs c (List.mem_cons_of_mem _ hc))
      obtain ⟨f, pending, out⟩ := st
      rcases emitDamaged_cases now f pending out b with
        ⟨u, g, v, hp, hst⟩ | ⟨slot, g, -, hst⟩ | hst | hst <;> rw [hst]
      · obtain ⟨c, hc, hconf⟩ := h
        simp only [hp, List.mem_append, List.mem_cons] at hc
        rcases hc with hc | rfl | hc
        · exact ⟨c, by simp [hc], hconf⟩
        · exact ⟨c.addAll b.sightings, by simp,
            (Bucket.confirmed_addAll key c (hbs b (by simp))).trans hconf⟩
        · exact ⟨c, by simp [hc], hconf⟩
      · exact h
      · exact h
      · exact h

theorem mem_emitPending_foldl (now : Time) {bs : List Bucket} {st : Fusion × List Emission}
    {g : Bucket} (h : g ∈ bs ∨ ∃ e ∈ st.2, e.bucket = g) :
    ∃ e ∈ (bs.foldl (emitPending now) st).2, e.bucket = g := by
  induction bs generalizing st with
  | nil => simpa using h
  | cons b bs ih =>
      apply ih
      rcases h with hmem | ⟨e, he, hg⟩
      · rcases List.mem_cons.mp hmem with rfl | hrest
        · exact Or.inr ⟨_, List.mem_append_right _ (List.mem_singleton_self _), rfl⟩
        · exact Or.inl hrest
      · exact Or.inr ⟨e, List.mem_append_left _ he, hg⟩

theorem emit_confirmed {key : Key} {given : List Sighting} {f : Fusion} {done : List Bucket}
    {b : Bucket} (hb : b ∈ done) (hconf : b.confirmed key = given) (hgiven : given ≠ [])
    (now : Time) : ∃ e ∈ (f.emit done now).2, e.bucket.confirmed key = given := by
  have hgood := Bucket.hasGood_of_confirmed (hconf ▸ hgiven : b.confirmed key ≠ [])
  obtain ⟨g, hg, hgconf⟩ : ∃ g ∈ (emitLoop f done now).2.1, g.confirmed key = given := by
    apply pending_emitDamaged_foldl now
    · intro c hc
      simpa using (List.mem_filter.mp hc).2
    · exact ⟨b, List.mem_filter.mpr ⟨mem_sortOn.mpr hb, hgood⟩, hconf⟩
  obtain ⟨e, he, rfl⟩ : ∃ e ∈ ((emitLoop f done now).2.1.foldl (emitPending now)
      ((emitLoop f done now).1, (emitLoop f done now).2.2)).2, e.bucket = g :=
    mem_emitPending_foldl now (Or.inl hg)
  refine ⟨e, ?_, hgconf⟩
  rw [emit_eq, mem_sortOn]
  exact he

/-- The verified copies of a message that lie within one window end up in one bucket
and in one event, in every run of arrivals that meet their own bucket up to the last
verified copy. -/
theorem arrivals_together (cfg : FusionConfig) (hext : 0 ≤ cfg.extend_s) (key : Key)
    (early later : List (Sighting × Option Time)) (hsome : verifiedCopies key early ≠ [])
    (hlast : verifiedCopies key later = [])
    (hwindow : ∀ s ∈ verifiedCopies key early, ∀ t ∈ verifiedCopies key early,
      s.when ≤ t.when + cfg.window_s)
    (hmeets : Machine.Admitted step (MeetsOwn key) (fresh cfg none) (arrivals early)) (now : Time) :
    let final := ((fresh cfg none).run (arrivals (early ++ later))).1
    (∃ b ∈ final.buckets, b.confirmed key = verifiedCopies key (early ++ later)) ∧
      ∃ e ∈ (final.flush now).2, e.bucket.confirmed key = verifiedCopies key (early ++ later) := by
  intro final
  have hstart : Together key [] (fresh cfg none) := ⟨by simp, by simp⟩
  have hend : Together key ([] ++ verifiedCopies key early)
      ((fresh cfg none).run (arrivals early)).1 :=
    together_run rfl rfl hext hwindow hmeets hstart
  obtain ⟨b, hget, hb⟩ := hend.filed hsome
  have hmem : b ∈ ((fresh cfg none).run (arrivals early)).1.buckets :=
    List.mem_append_left _ (Dict.mem_values_of_get hget)
  have hfinal : final = (((fresh cfg none).run (arrivals early)).1.run (arrivals later)).1 := by
    simp only [final, arrivals, List.map_append, run_append]
  obtain ⟨c, hc, hconf⟩ : ∃ c ∈ final.buckets,
      c.confirmed key = verifiedCopies key (early ++ later) := by
    rw [verifiedCopies_append, hlast, List.append_nil, hfinal]
    exact confirmed_run (skew_run early rfl) hlast ⟨b, hmem, hb⟩
  refine ⟨⟨c, hc, hconf⟩, emit_confirmed ?_ hconf ?_ now⟩
  · rcases List.mem_append.mp hc with hopen | hready
    · exact List.mem_append_right _ hopen
    · exact List.mem_append_left _ hready
  · rw [verifiedCopies_append, hlast, List.append_nil]
    exact hsome

def goodCopy (receiver : String) (timestamp : Time) : Sighting × Option Time :=
  (commandCopy 0x01#8 0x35#8 receiver (-70) timestamp, none)

def badCopy (cmd2 : Byte) (timestamp : Time) : Sighting × Option Time :=
  (commandCopy cmd2 0x66#8 "a" (-90) timestamp, none)

def messageCopies : List (Sighting × Option Time) :=
  [badCopy 0x01#8 0, goodCopy "b" (1 / 10), badCopy 0x03#8 (1 / 5), goodCopy "c" (3 / 10)]

/-- A damaged copy long after them, which ends their bucket. -/
def laterCopies : List (Sighting × Option Time) := [badCopy 0x01#8 5]

theorem arrivals_together_message :
    (∃ b ∈ ((fresh {} none).run (arrivals (messageCopies ++ laterCopies))).1.buckets,
        b.confirmed (goodCopy "b" 0).1.key =
          verifiedCopies (goodCopy "b" 0).1.key (messageCopies ++ laterCopies)) ∧
      ∃ e ∈ (((fresh {} none).run (arrivals (messageCopies ++ laterCopies))).1.flush 9).2,
        e.bucket.confirmed (goodCopy "b" 0).1.key =
          verifiedCopies (goodCopy "b" 0).1.key (messageCopies ++ laterCopies) :=
  arrivals_together {} (by decide +kernel) (goodCopy "b" 0).1.key messageCopies laterCopies
    (by decide +kernel) (by decide +kernel) (by decide +kernel) (by decide +kernel) 9

/-- Two verified copies of a message, all of whose verified copies lie within one window,
that share no bucket and no event. -/
def Separated (cfg : FusionConfig) (key : Key) (adds : List (Sighting × Option Time)) : Prop :=
  (∀ s ∈ verifiedCopies key adds, ∀ t ∈ verifiedCopies key adds,
      s.when ≤ t.when + cfg.window_s) ∧
    ∃ s ∈ verifiedCopies key adds, ∃ t ∈ verifiedCopies key adds,
      (∀ b ∈ ((fresh cfg none).run (arrivals adds)).1.buckets,
        ¬ (s ∈ b.sightings ∧ t ∈ b.sightings)) ∧
      ∀ e ∈ (((fresh cfg none).run (arrivals adds)).1.flush 10).2,
        ¬ (s ∈ e.bucket.sightings ∧ t ∈ e.bucket.sightings)

instance (cfg : FusionConfig) (key : Key) (adds : List (Sighting × Option Time)) :
    Decidable (Separated cfg key adds) := by
  unfold Separated
  infer_instance

/-- Copies part when the first joins a damaged one by similarity, when damaged copies
have used up the cap, when a damaged copy past the window ends the bucket, and when
a negative extension shrinks it. -/
theorem arrivals_separated :
    Separated {} (goodCopy "b" 0).1.key
        [badCopy 0x03#8 0, goodCopy "b" (1 / 100), goodCopy "c" (1 / 50)] ∧
      Separated {} (goodCopy "b" 0).1.key
        [badCopy 0x01#8 0, badCopy 0x01#8 (3 / 5), badCopy 0x01#8 (13 / 10),
          goodCopy "b" (19 / 10), goodCopy "c" (21 / 10)] ∧
      Separated {} (goodCopy "b" 0).1.key
        [goodCopy "b" 0, badCopy 0x01#8 5, goodCopy "c" (1 / 10)] ∧
      Separated { extend_s := -1 } (goodCopy "b" 0).1.key
        [goodCopy "b" 0, goodCopy "c" (1 / 10), goodCopy "d" (1 / 5)] := by
  decide +kernel

end Fusion

end InsteonRf
