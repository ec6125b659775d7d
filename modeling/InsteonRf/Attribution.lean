import InsteonRf.FusionOrder

/-!
# Who was closest

An event names the receiver whose copies travelled least, the loudest of them in a tie,
and the least and most hops left of any copy. All of it is taken over every copy of the
bucket, with a matching CRC or without, so a copy that is not verified counts unless a
verified one tells as much.
-/
namespace InsteonRf
open OrderedDict Selection

namespace Bucket

def Heard (ss : List Sighting) (r : String) : Prop := ∃ s ∈ ss, s.receiver = r

def viewOf (ss : List Sighting) (r : String) : ReceiverView :=
  (ss.filter (fun s => s.receiver = r)).foldl ReceiverView.note {}

def reach (ss : List Sighting) (r : String) : Lex (ℤ × ℚ) := closeness (r, viewOf ss r)

def level (reading : Option ℚ) : ℚ := reading.getD (-999)

theorem get_views_of_heard {ss : List Sighting} {r : String} (h : Heard ss r) :
    (views ss).get r = some (viewOf ss r) := by
  obtain ⟨s, hs, hr⟩ := h
  have hmem : s ∈ ss.filter (fun s => s.receiver = r) := List.mem_filter.mpr ⟨hs, by simpa using hr⟩
  have hfold : ∀ (l : List Sighting) (v : ReceiverView),
      l.foldl noteInto (some v) = some (l.foldl ReceiverView.note v) := by
    intro l
    induction l with
    | nil => exact fun v => rfl
    | cons s l ih => exact fun v => ih (v.note s)
  rw [get_views, viewOf]
  cases hl : ss.filter (fun s => s.receiver = r) with
  | nil =>
      rw [hl] at hmem
      cases hmem
  | cons t l => exact hfold l _

theorem mem_keys_heard {ss : List Sighting} {r : String} : r ∈ (views ss).keys ↔ Heard ss r :=
  mem_keys_views.trans List.mem_map

theorem keys_views_prefix (u v : List Sighting) : (views u).keys <+: (views (u ++ v)).keys := by
  rw [views, views, List.foldl_append]
  generalize u.foldl _ Dict.empty = d
  induction v generalizing d with
  | nil => exact List.prefix_refl _
  | cons s v ih => exact (Dict.keys_prefix_set d _ _).trans (ih _)

/-- There is a copy of one receiver before every copy of the other. -/
def HeardBefore (ss : List Sighting) (w r : String) : Prop :=
  ∃ u s v, ss = u ++ s :: v ∧ s.receiver = w ∧ ∀ t ∈ u, t.receiver ≠ r

theorem heardBefore_iff {ss : List Sighting} {w r : String} (hne : r ≠ w) (hr : Heard ss r) :
    HeardBefore ss w r ↔ ∃ p q, (views ss).keys = p ++ w :: q ∧ r ∉ p := by
  constructor
  · rintro ⟨u, s, v, rfl, hs, hu⟩
    have hw : w ∈ (views (u ++ [s])).keys := mem_keys_heard.mpr ⟨s, by simp, hs⟩
    have hr' : r ∉ (views (u ++ [s])).keys := by
      intro h
      obtain ⟨t, ht, htr⟩ := mem_keys_heard.mp h
      rcases List.mem_append.mp ht with hold | hnew
      · exact hu t hold htr
      · rw [List.mem_singleton.mp hnew, hs] at htr
        exact hne htr.symm
    obtain ⟨rest, hrest⟩ := keys_views_prefix (u ++ [s]) v
    obtain ⟨p, q, hp⟩ := List.append_of_mem hw
    refine ⟨p, q ++ rest, ?_, ?_⟩
    · rw [List.append_cons, ← hrest, hp]
      simp
    · intro h
      exact hr' (hp ▸ List.mem_append_left _ h)
  · rintro ⟨p, q, hkeys, hp⟩
    obtain ⟨t, ht, htr⟩ := hr
    -- The copies before the first one of `r`.
    obtain ⟨u, t', v, rfl, htr', hu⟩ : ∃ u t' v, ss = u ++ t' :: v ∧ t'.receiver = r ∧
        ∀ s ∈ u, s.receiver ≠ r := by
      cases hfind : ss.find? (fun s => s.receiver = r) with
      | none => exact absurd htr (by simpa using List.find?_eq_none.mp hfind t ht)
      | some t' =>
          obtain ⟨htr', u, v, hss, hu⟩ := List.find?_eq_some_iff_append.mp hfind
          exact ⟨u, t', v, hss, by simpa using htr', by simpa using hu⟩
    have hheard : ∃ s ∈ u, s.receiver = w := by
      have hbefore := keys_views_prefix (u ++ [t']) v
      rw [← List.append_cons] at hbefore
      have hto : p ++ [w] <+: (views (u ++ t' :: v)).keys := ⟨q, by rw [hkeys, ← List.append_cons]⟩
      have hrt : r ∈ (views (u ++ [t'])).keys := mem_keys_heard.mpr ⟨t', by simp, htr'⟩
      rcases List.prefix_or_prefix_of_prefix hbefore hto with hle | hle
      · rcases List.mem_append.mp (hle.subset hrt) with hmem | hlast
        · exact absurd hmem hp
        · exact absurd (List.mem_singleton.mp hlast) hne
      · obtain ⟨s, hs, hsw⟩ := mem_keys_heard.mp (hle.subset (List.mem_append_right p (List.mem_singleton_self w)))
        rcases List.mem_append.mp hs with hmem | hlast
        · exact ⟨s, hmem, hsw⟩
        · rw [List.mem_singleton.mp hlast, htr'] at hsw
          exact absurd hsw hne
    obtain ⟨s, hs, hsw⟩ := hheard
    obtain ⟨a, b, rfl⟩ := List.append_of_mem hs
    exact ⟨a, s, b ++ t' :: v, by simp, hsw, fun x hx => hu x (List.mem_append_left _ hx)⟩

def closestOf (ss : List Sighting) : Option String := (maxOn closeness (views ss).items).map Prod.fst

theorem mem_items_views {ss : List Sighting} {e : String × ReceiverView} :
    e ∈ (views ss).items ↔ Heard ss e.1 ∧ e.2 = viewOf ss e.1 := by
  have hget : (views ss).get e.1 = some e.2 ↔ e ∈ (views ss).items := Dict.get_eq_some_iff
  constructor
  · intro he
    have hheard : Heard ss e.1 := mem_keys_heard.mp (List.mem_map_of_mem he)
    have hview := hget.mpr he
    rw [get_views_of_heard hheard] at hview
    exact ⟨hheard, (Option.some.inj hview).symm⟩
  · rintro ⟨hheard, hview⟩
    rw [← hget, get_views_of_heard hheard, hview]

theorem closeness_of_mem {ss : List Sighting} {e : String × ReceiverView}
    (he : e ∈ (views ss).items) : closeness e = reach ss e.1 := by
  rw [reach, ← (mem_items_views.mp he).2]

theorem heardBefore_of_items {ss : List Sighting} {u v : List (String × ReceiverView)}
    {e : String × ReceiverView} (hitems : (views ss).items = u ++ e :: v) :
    (∀ x ∈ u, x.1 ≠ e.1 ∧ ¬ HeardBefore ss e.1 x.1) ∧
      ∀ x ∈ v, x.1 ≠ e.1 ∧ HeardBefore ss e.1 x.1 := by
  have hkeys : (views ss).keys = u.map Prod.fst ++ e.1 :: v.map Prod.fst := by
    rw [Dict.keys, hitems]
    simp
  have hnodup : (u.map Prod.fst ++ e.1 :: v.map Prod.fst).Nodup := by
    rw [← hkeys]
    exact (views ss).nodup
  have hsplit : e.1 ∉ u.map Prod.fst ∧ e.1 ∉ v.map Prod.fst := by
    rw [List.nodup_middle, List.nodup_cons, List.mem_append] at hnodup
    exact not_or.mp hnodup.1
  have hheard : ∀ x ∈ u ++ e :: v, Heard ss x.1 := by
    rw [← hitems]
    exact fun x hx => (mem_items_views.mp hx).1
  constructor
  · intro x hx
    have hxu : x.1 ∈ u.map Prod.fst := List.mem_map_of_mem hx
    have hne : x.1 ≠ e.1 := fun h => hsplit.1 (h ▸ hxu)
    refine ⟨hne, fun hbefore => ?_⟩
    obtain ⟨p, q, hp, hxp⟩ :=
      (heardBefore_iff hne (hheard x (List.mem_append_left _ hx))).mp hbefore
    have heq := (List.append_cons_inj_of_notMem hsplit.1 hsplit.2).mp (hkeys.symm.trans hp)
    exact hxp (heq.1 ▸ hxu)
  · intro x hx
    have hxv : x.1 ∈ v.map Prod.fst := List.mem_map_of_mem hx
    have hne : x.1 ≠ e.1 := fun h => hsplit.2 (h ▸ hxv)
    have hmem : x ∈ u ++ e :: v := List.mem_append_right _ (List.mem_cons_of_mem _ hx)
    refine ⟨hne, (heardBefore_iff hne (hheard x hmem)).mpr ⟨_, _, hkeys, fun hxu => ?_⟩⟩
    exact (List.nodup_append.mp hnodup).2.2 x.1 hxu x.1 (List.mem_cons_of_mem _ hxv) rfl

/-- The closest receiver reaches furthest; of those that reach equally far it was heard
first. -/
theorem closestOf_eq_some_iff {ss : List Sighting} {w : String} :
    closestOf ss = some w ↔ Heard ss w ∧ ∀ r ≠ w, Heard ss r →
      reach ss r < reach ss w ∨ (reach ss r = reach ss w ∧ HeardBefore ss w r) := by
  rw [closestOf, Option.map_eq_some_iff]
  constructor
  · rintro ⟨e, hbest, rfl⟩
    obtain ⟨u, v, hitems, hu, hv⟩ := maxOn_eq_some_iff.mp hbest
    have hlater := (heardBefore_of_items hitems).2
    have he : e ∈ (views ss).items := by
      rw [hitems]
      exact List.mem_append_right _ List.mem_cons_self
    refine ⟨(mem_items_views.mp he).1, ?_⟩
    intro r hne hr
    have hmem : (r, viewOf ss r) ∈ u ++ e :: v := by
      rw [← hitems]
      exact mem_items_views.mpr ⟨hr, rfl⟩
    change closeness (r, viewOf ss r) < _ ∨ _
    rw [← closeness_of_mem he]
    rcases List.mem_append.mp hmem with hbefore | hafter
    · exact Or.inl (hu _ hbefore)
    · rcases List.mem_cons.mp hafter with heq | hafter
      · exact absurd (congrArg Prod.fst heq) hne
      · exact (hv _ hafter).lt_or_eq.imp_right fun heq => ⟨heq, (hlater _ hafter).2⟩
  · rintro ⟨hw, hothers⟩
    have hmem : (w, viewOf ss w) ∈ (views ss).items := mem_items_views.mpr ⟨hw, rfl⟩
    obtain ⟨u, v, hitems⟩ := List.append_of_mem hmem
    obtain ⟨hearlier, hlater⟩ := heardBefore_of_items hitems
    have hrest : ∀ x ∈ (views ss).items, x.1 ≠ w →
        closeness x < reach ss w ∨ (closeness x = reach ss w ∧ HeardBefore ss w x.1) := by
      intro x hx hne
      rw [closeness_of_mem hx]
      exact hothers x.1 hne (mem_items_views.mp hx).1
    rw [hitems] at hrest
    refine ⟨(w, viewOf ss w), maxOn_eq_some_iff.mpr ⟨u, v, hitems, ?_, ?_⟩, rfl⟩
    · intro x hx
      obtain ⟨hne, hnot⟩ := hearlier x hx
      rcases hrest x (List.mem_append_left _ hx) hne with hlt | ⟨-, hbefore⟩
      · exact hlt
      · exact absurd hbefore hnot
    · intro x hx
      rcases hrest x (List.mem_append_right _ (List.mem_cons_of_mem _ hx)) (hlater x hx).1 with
        hlt | ⟨heq, -⟩
      · exact hlt.le
      · exact heq.le

theorem best_hops_left_le {ss : List Sighting} {r : String} {n : ℤ} :
    (viewOf ss r).best_hops_left ≤ n ↔
      -1 ≤ n ∧ ∀ s ∈ ss, s.receiver = r → (s.packet.hopsLeft : ℤ) ≤ n := by
  have hfold : ∀ (l : List Sighting) (v : ReceiverView),
      (l.foldl ReceiverView.note v).best_hops_left ≤ n ↔
        v.best_hops_left ≤ n ∧ ∀ s ∈ l, (s.packet.hopsLeft : ℤ) ≤ n := by
    intro l
    induction l with
    | nil => simp
    | cons s l ih =>
        intro v
        rw [List.foldl_cons, ih, List.forall_mem_cons, ← and_assoc]
        exact and_congr_left' max_le_iff
  rw [viewOf, hfold]
  simp [List.mem_filter]

theorem exists_hops_of_le {ss : List Sighting} {r : String} {n : ℕ}
    (h : (n : ℤ) ≤ (viewOf ss r).best_hops_left) :
    ∃ s ∈ ss, s.receiver = r ∧ n ≤ s.packet.hopsLeft := by
  by_contra hnone
  have hless : (viewOf ss r).best_hops_left ≤ (n : ℤ) - 1 := by
    refine best_hops_left_le.mpr ⟨by omega, ?_⟩
    intro s hs hr
    have hlt : ¬ n ≤ s.packet.hopsLeft := fun hge => hnone ⟨s, hs, hr, hge⟩
    omega
  omega

theorem mem_bestReading {old new : Option ℚ} {x : ℚ} (h : x ∈ bestReading old new) :
    x ∈ old ∨ x ∈ new := by
  cases old <;> cases new <;> simp only [bestReading] at h
  · exact Or.inl h
  · exact Or.inr h
  · exact Or.inl h
  · split_ifs at h
    · exact Or.inr h
    · exact Or.inl h

theorem bestReading_le {old new : Option ℚ} {x : ℚ} :
    (∀ y ∈ bestReading old new, y ≤ x) ↔ (∀ y ∈ old, y ≤ x) ∧ ∀ y ∈ new, y ≤ x := by
  cases old with
  | none => cases new <;> simp [bestReading]
  | some y =>
      cases new with
      | none => simp [bestReading]
      | some z =>
          have hmax : bestReading (some y) (some z) = some (max y z) := by
            rw [bestReading]
            split_ifs with h
            · rw [max_eq_right h.le]
            · rw [max_eq_left (not_lt.mp h)]
          simp [hmax]

theorem bestReading_eq_none {old new : Option ℚ} (h : bestReading old new = none) :
    old = none ∧ new = none := by
  cases old <;> cases new <;> simp only [bestReading] at h
  · exact ⟨rfl, rfl⟩
  · cases h
  · cases h
  · split_ifs at h

/-- The loudest reading of a receiver is one of its copies', and no other is louder. -/
theorem rssi_foldl (l : List Sighting) (v : ReceiverView) :
    (∀ x ∈ (l.foldl ReceiverView.note v).rssi_dbm,
      (x ∈ v.rssi_dbm ∨ ∃ s ∈ l, x ∈ s.rssi_dbm) ∧
        (∀ y ∈ v.rssi_dbm, y ≤ x) ∧ ∀ s ∈ l, ∀ y ∈ s.rssi_dbm, y ≤ x) ∧
    ((l.foldl ReceiverView.note v).rssi_dbm = none →
      v.rssi_dbm = none ∧ ∀ s ∈ l, s.rssi_dbm = none) := by
  induction l generalizing v with
  | nil =>
      refine ⟨?_, fun h => ⟨h, by simp⟩⟩
      exact fun x hx => ⟨Or.inl hx, fun y hy => (Option.mem_unique hy hx).le, by simp⟩
  | cons s l ih =>
      obtain ⟨hsome, hnone⟩ := ih (v.note s)
      rw [List.foldl_cons]
      constructor
      · intro x hx
        obtain ⟨hmem, hle, hrest⟩ := hsome x hx
        obtain ⟨hold, hnew⟩ := bestReading_le.mp hle
        refine ⟨?_, hold, List.forall_mem_cons.mpr ⟨hnew, hrest⟩⟩
        rcases hmem with hv | ⟨t, ht, hxt⟩
        · exact (mem_bestReading hv).imp_right fun h => ⟨s, List.mem_cons_self, h⟩
        · exact Or.inr ⟨t, List.mem_cons_of_mem s ht, hxt⟩
      · intro h
        obtain ⟨hv, hrest⟩ := hnone h
        obtain ⟨hold, hnew⟩ := bestReading_eq_none hv
        exact ⟨hold, List.forall_mem_cons.mpr ⟨hnew, hrest⟩⟩

theorem rssi_viewOf (ss : List Sighting) (r : String) :
    (∀ x ∈ (viewOf ss r).rssi_dbm, (∃ s ∈ ss, s.receiver = r ∧ x ∈ s.rssi_dbm) ∧
      ∀ s ∈ ss, s.receiver = r → ∀ y ∈ s.rssi_dbm, y ≤ x) ∧
    ((viewOf ss r).rssi_dbm = none → ∀ s ∈ ss, s.receiver = r → s.rssi_dbm = none) := by
  obtain ⟨hsome, hnone⟩ := rssi_foldl (ss.filter (fun s => s.receiver = r)) {}
  have hmem : ∀ {s}, s ∈ ss.filter (fun s => s.receiver = r) ↔ s ∈ ss ∧ s.receiver = r := by
    simp
  constructor
  · intro x hx
    obtain ⟨hfrom, -, hle⟩ := hsome x hx
    refine ⟨?_, fun s hs hr => hle s (hmem.mpr ⟨hs, hr⟩)⟩
    rcases hfrom with hempty | ⟨s, hs, hsx⟩
    · cases hempty
    · exact ⟨s, (hmem.mp hs).1, (hmem.mp hs).2, hsx⟩
  · exact fun h s hs hr => (hnone h).2 s (hmem.mpr ⟨hs, hr⟩)

/-- The level of a receiver is that of one of its copies. -/
theorem level_viewOf_mem {ss : List Sighting} {r : String} (h : Heard ss r) :
    ∃ s ∈ ss, s.receiver = r ∧ level (viewOf ss r).rssi_dbm = level s.rssi_dbm := by
  obtain ⟨hsome, hnone⟩ := rssi_viewOf ss r
  cases hx : (viewOf ss r).rssi_dbm with
  | none =>
      obtain ⟨s, hs, hr⟩ := h
      exact ⟨s, hs, hr, by rw [hnone hx s hs hr]⟩
  | some x =>
      obtain ⟨⟨s, hs, hr, hsx⟩, -⟩ := hsome x hx
      exact ⟨s, hs, hr, by rw [Option.mem_def.mp hsx]⟩

theorem le_level_viewOf {ss : List Sighting} {s : Sighting} (hs : s ∈ ss)
    (hfloor : s.rssi_dbm = none → ∀ t ∈ ss, t.receiver = s.receiver → ∀ y ∈ t.rssi_dbm, -999 ≤ y) :
    level s.rssi_dbm ≤ level (viewOf ss s.receiver).rssi_dbm := by
  obtain ⟨hsome, hnone⟩ := rssi_viewOf ss s.receiver
  cases hx : (viewOf ss s.receiver).rssi_dbm with
  | none => rw [hnone hx s hs rfl]
  | some x =>
      obtain ⟨⟨t, ht, hr, htx⟩, hle⟩ := hsome x hx
      cases hy : s.rssi_dbm with
      | none => exact hfloor hy t ht hr x htx
      | some y => exact hle s hs rfl y hy

theorem reach_lt_of_hops {ss : List Sighting} {r w : String}
    (h : (viewOf ss r).best_hops_left < (viewOf ss w).best_hops_left) : reach ss r < reach ss w :=
  Prod.Lex.toLex_lt_toLex.mpr (Or.inl h)

theorem reach_lt {ss : List Sighting} {r w : String}
    (h : (viewOf ss r).best_hops_left ≤ (viewOf ss w).best_hops_left)
    (hlevel : level (viewOf ss r).rssi_dbm < level (viewOf ss w).rssi_dbm) :
    reach ss r < reach ss w :=
  Prod.Lex.toLex_lt_toLex.mpr (h.lt_or_eq.imp_right fun heq => ⟨heq, hlevel⟩)

theorem reach_le {ss : List Sighting} {r w : String}
    (h : (viewOf ss r).best_hops_left ≤ (viewOf ss w).best_hops_left)
    (hlevel : level (viewOf ss r).rssi_dbm ≤ level (viewOf ss w).rssi_dbm) :
    reach ss r ≤ reach ss w :=
  Prod.Lex.toLex_le_toLex.mpr (h.lt_or_eq.imp_right fun heq => ⟨heq, hlevel⟩)

/-- The copies with some of those not verified left out. -/
inductive Thinned : List Sighting → List Sighting → Prop where
  | nil : Thinned [] []
  | keep (s : Sighting) {ts ss : List Sighting} (h : Thinned ts ss) : Thinned (s :: ts) (s :: ss)
  | leave {s : Sighting} (hs : s.verified = false) {ts ss : List Sighting} (h : Thinned ts ss) :
      Thinned ts (s :: ss)

namespace Thinned

variable {ts ss : List Sighting}

theorem refl (ss : List Sighting) : Thinned ss ss := by
  induction ss with
  | nil => exact .nil
  | cons s ss ih => exact .keep s ih

theorem filter {p : Sighting → Bool} (ss : List Sighting)
    (h : ∀ s ∈ ss, s.verified = true → p s = true) : Thinned (ss.filter p) ss := by
  induction ss with
  | nil => exact .nil
  | cons s ss ih =>
      obtain ⟨hs, hss⟩ := List.forall_mem_cons.mp h
      by_cases hp : p s = true
      · rw [List.filter_cons_of_pos hp]
        exact .keep s (ih hss)
      · rw [List.filter_cons_of_neg hp]
        exact .leave (by simpa using fun hver => hp (hs hver)) (ih hss)

theorem subset (h : Thinned ts ss) : ∀ s ∈ ts, s ∈ ss := by
  induction h with
  | nil => exact fun s hs => hs
  | keep s _ ih => exact List.forall_mem_cons.mpr ⟨List.mem_cons_self, fun t ht => List.mem_cons_of_mem s (ih t ht)⟩
  | leave _ _ ih => exact fun t ht => List.mem_cons_of_mem _ (ih t ht)

theorem filter_verified (h : Thinned ts ss) :
    ts.filter Sighting.verified = ss.filter Sighting.verified := by
  induction h with
  | nil => rfl
  | keep s _ ih => rw [List.filter_cons, List.filter_cons, ih]
  | leave hs _ ih => rw [List.filter_cons_of_neg (by simp [hs]), ih]

theorem mem_of_verified (h : Thinned ts ss) {s : Sighting} (hs : s ∈ ss) (hver : s.verified = true) :
    s ∈ ts := by
  have hmem : s ∈ ts.filter Sighting.verified := by
    rw [h.filter_verified]
    exact List.mem_filter.mpr ⟨hs, hver⟩
  exact (List.mem_filter.mp hmem).1

theorem split (h : Thinned ts ss) {u v : List Sighting} {s : Sighting} (hver : s.verified = true)
    (hss : ss = u ++ s :: v) : ∃ u' v', ts = u' ++ s :: v' ∧ ∀ t ∈ u', t ∈ u := by
  induction h generalizing u with
  | nil => simp at hss
  | keep t h ih =>
      rcases List.cons_eq_append_iff.mp hss with ⟨rfl, heq⟩ | ⟨u, rfl, heq⟩
      · obtain ⟨rfl, -⟩ := List.cons.inj heq
        exact ⟨[], _, rfl, by simp⟩
      · obtain ⟨u', v', rfl, hu⟩ := ih heq
        refine ⟨t :: u', v', rfl, List.forall_mem_cons.mpr ⟨List.mem_cons_self, ?_⟩⟩
        exact fun x hx => List.mem_cons_of_mem t (hu x hx)
  | leave ht h ih =>
      rcases List.cons_eq_append_iff.mp hss with ⟨rfl, heq⟩ | ⟨u, rfl, heq⟩
      · obtain ⟨rfl, -⟩ := List.cons.inj heq
        rw [hver] at ht
        cases ht
      · obtain ⟨u', v', rfl, hu⟩ := ih heq
        exact ⟨u', v', rfl, fun x hx => List.mem_cons_of_mem _ (hu x hx)⟩

end Thinned

theorem exists_bucket {ss : List Sighting} (h : ss ≠ []) : ∃ b : Bucket, b.sightings = ss := by
  cases ss with
  | nil => exact absurd rfl h
  | cons s ss => exact ⟨(new s.key s).addAll ss, by simp⟩

theorem hops_left_max_le (b : Bucket) (allowCombine : Bool) (x : ℕ) :
    (b.build allowCombine).hops_left_max ≤ x ↔ ∀ s ∈ b.sightings, s.packet.hopsLeft ≤ x := by
  exact (foldl_max_le b.hopsList 0 x).trans (by simp [hopsList])

theorem exists_hops_left_min (b : Bucket) (allowCombine : Bool) :
    ∃ s ∈ b.sightings, s.packet.hopsLeft ≤ (b.build allowCombine).hops_left_min := by
  by_contra hnone
  have hmore : (b.build allowCombine).hops_left_min + 1 ≤ (b.build allowCombine).hops_left_min := by
    apply (le_hops_left_min b allowCombine _).mpr
    intro y hy
    obtain ⟨s, hs, rfl⟩ := List.mem_map.mp hy
    exact Nat.lt_of_not_le fun hle => hnone ⟨s, hs, hle⟩
  omega

theorem exists_hops_left_max (b : Bucket) (allowCombine : Bool) :
    ∃ s ∈ b.sightings, (b.build allowCombine).hops_left_max ≤ s.packet.hopsLeft := by
  by_contra hnone
  have hfewer : ∀ s ∈ b.sightings, s.packet.hopsLeft < (b.build allowCombine).hops_left_max :=
    fun s hs => Nat.lt_of_not_le fun hle => hnone ⟨s, hs, hle⟩
  have hhead := hfewer _ (List.head_mem b.nonempty)
  have hless := (hops_left_max_le b allowCombine _).mpr fun s hs => Nat.le_sub_one_of_lt (hfewer s hs)
  omega

theorem choosePacket_thinned {b c : Bucket} (h : Thinned c.sightings b.sightings)
    (hver : ∃ s ∈ b.sightings, s.verified = true) (allowCombine : Bool) :
    c.choosePacket allowCombine = b.choosePacket allowCombine := by
  obtain ⟨s, hs, hsv⟩ := hver
  rw [choosePacket, choosePacket, h.filter_verified]
  cases hbest : maxOn preference (b.sightings.filter Sighting.verified) with
  | some best => rfl
  | none =>
      have hmem : s ∈ b.sightings.filter Sighting.verified := List.mem_filter.mpr ⟨hs, hsv⟩
      rw [maxOn_eq_none_iff.mp hbest] at hmem
      cases hmem

end Bucket

@[ext]
structure Attribution where
  closest : Option String
  hops_left_min : ℕ
  hops_left_max : ℕ
  hops_used : ℤ
  deriving DecidableEq

def FusedEvent.attribution (e : FusedEvent) : Attribution where
  closest := e.closest
  hops_left_min := e.hops_left_min
  hops_left_max := e.hops_left_max
  hops_used := e.hopsUsed

namespace Bucket

/-- No copy has more hops left. -/
def Furthest (ss : List Sighting) (s : Sighting) : Prop :=
  ∀ t ∈ ss, t.packet.hopsLeft ≤ s.packet.hopsLeft

instance (ss : List Sighting) (s : Sighting) : Decidable (Furthest ss s) :=
  inferInstanceAs (Decidable (∀ t ∈ ss, _))

/-- By its verified copies the receiver reaches as far as any and to the level `x`. Any
other that reaches as far is weaker by all of its copies, or no louder and heard later. -/
structure Leads (ss : List Sighting) (w : String) (x : ℚ) : Prop where
  furthest : ∃ v ∈ ss, v.verified = true ∧ v.receiver = w ∧ Furthest ss v
  level : (∃ v ∈ ss, v.verified = true ∧ v.receiver = w ∧ v.rssi_dbm = some x) ∨
    (x ≤ -999 ∧ ∀ s ∈ ss, s.receiver = w → ∀ y ∈ s.rssi_dbm, x ≤ y)
  others : ∀ s ∈ ss, s.receiver ≠ w → Furthest ss s →
    (∀ t ∈ ss, t.receiver = s.receiver → Bucket.level t.rssi_dbm < x) ∨
    ((∀ t ∈ ss, t.receiver = s.receiver → Bucket.level t.rssi_dbm ≤ x) ∧
      ∃ u v rest, ss = u ++ v :: rest ∧ v.verified = true ∧ v.receiver = w ∧
        ∀ t ∈ u, t.receiver ≠ s.receiver)

/-- The verified copies alone settle what the event attributes. -/
def Settled (ss : List Sighting) : Prop :=
  (∃ v ∈ ss, v.verified = true ∧ ∀ s ∈ ss, v.packet.hopsLeft ≤ s.packet.hopsLeft) ∧
    ∃ w x, Leads ss w x

variable {ss ts : List Sighting} {w : String} {x : ℚ}

theorem le_level_of_leads (h : Leads ss w x) (hthin : Thinned ts ss) (hw : Heard ts w) :
    x ≤ level (viewOf ts w).rssi_dbm := by
  rcases h.level with ⟨v, hv, hver, rfl, hx⟩ | ⟨hx, hall⟩
  · have hle := le_level_viewOf (hthin.mem_of_verified hv hver) (by simp [hx])
    rw [hx] at hle
    exact hle
  · obtain ⟨s, hs, hr, hlevel⟩ := level_viewOf_mem hw
    rw [hlevel]
    cases hy : s.rssi_dbm with
    | none => exact hx
    | some y => exact hall s (hthin.subset s hs) hr y hy

/-- The receiver that leads is named whatever copies are left out. -/
theorem closestOf_of_leads (h : Leads ss w x) (hthin : Thinned ts ss) : closestOf ts = some w := by
  obtain ⟨v, hv, hver, hvw, htop⟩ := h.furthest
  have hvt : v ∈ ts := hthin.mem_of_verified hv hver
  have hw : Heard ts w := ⟨v, hvt, hvw⟩
  have hreach : (v.packet.hopsLeft : ℤ) ≤ (viewOf ts w).best_hops_left :=
    (best_hops_left_le.mp le_rfl).2 v hvt hvw
  refine closestOf_eq_some_iff.mpr ⟨hw, ?_⟩
  intro r hne hr
  have hle : (viewOf ts r).best_hops_left ≤ (v.packet.hopsLeft : ℤ) := by
    refine best_hops_left_le.mpr ⟨by omega, ?_⟩
    intro s hs _
    exact_mod_cast htop s (hthin.subset s hs)
  have hlead := le_level_of_leads h hthin hw
  obtain ⟨t, ht, htr, hlevel⟩ := level_viewOf_mem hr
  by_cases hfar : (v.packet.hopsLeft : ℤ) ≤ (viewOf ts r).best_hops_left
  · obtain ⟨s, hs, rfl, hsv⟩ := exists_hops_of_le hfar
    have hts := hthin.subset t ht
    rcases h.others s (hthin.subset s hs) hne (fun t ht => (htop t ht).trans hsv) with
      hweak | ⟨hweak, u, v', rest, hss, hver', hvw', hu⟩
    · refine Or.inl (reach_lt (hle.trans hreach) (lt_of_lt_of_le ?_ hlead))
      rw [hlevel]
      exact hweak t hts htr
    · obtain ⟨u', rest', hts', hsub⟩ := hthin.split hver' hss
      have hno : level (viewOf ts s.receiver).rssi_dbm ≤ level (viewOf ts w).rssi_dbm := by
        rw [hlevel]
        exact (hweak t hts htr).trans hlead
      refine (reach_le (hle.trans hreach) hno).lt_or_eq.imp_right fun heq => ⟨heq, ?_⟩
      exact ⟨u', v', rest', hts', hvw', fun y hy => hu y (hsub y hy)⟩
  · exact Or.inl (reach_lt_of_hops ((not_le.mp hfar).trans_le hreach))

theorem attribution_of_settled {b c : Bucket} (h : Settled b.sightings)
    (hthin : Thinned c.sightings b.sightings) (allowCombine : Bool) :
    (c.build allowCombine).attribution = (b.build allowCombine).attribution := by
  obtain ⟨⟨least, hleast, hleastver, hfew⟩, w, x, hleads⟩ := h
  obtain ⟨top, htop, htopver, -, hmost⟩ := hleads.furthest
  have hmin : (c.build allowCombine).hops_left_min = (b.build allowCombine).hops_left_min := by
    apply eq_of_forall_le_iff
    intro y
    rw [le_hops_left_min, le_hops_left_min]
    simp only [hopsList, List.forall_mem_map]
    constructor
    · exact fun hall s hs => (hall least (hthin.mem_of_verified hleast hleastver)).trans (hfew s hs)
    · exact fun hall s hs => hall s (hthin.subset s hs)
  have hmax : (c.build allowCombine).hops_left_max = (b.build allowCombine).hops_left_max := by
    apply eq_of_forall_ge_iff
    intro y
    rw [hops_left_max_le, hops_left_max_le]
    constructor
    · exact fun hall s hs => (hmost s hs).trans (hall top (hthin.mem_of_verified htop htopver))
    · exact fun hall s hs => hall s (hthin.subset s hs)
  have hpacket := choosePacket_thinned hthin ⟨top, htop, htopver⟩ allowCombine
  ext1
  · change closestOf c.sightings = closestOf b.sightings
    rw [closestOf_of_leads hleads hthin, closestOf_of_leads hleads (Thinned.refl _)]
  · exact hmin
  · exact hmax
  · change ((c.choosePacket allowCombine).1.maxHops : ℤ) - (c.build allowCombine).hops_left_min = _
    rw [hmin, hpacket]
    rfl

theorem viewOf_filter {p : Sighting → Bool} {q : Sighting → Bool} {r : String}
    (h : ∀ s ∈ ss, s.receiver = r → p s = q s) : viewOf (ss.filter p) r = viewOf (ss.filter q) r := by
  rw [viewOf, viewOf, List.filter_filter, List.filter_filter]
  congr 1
  apply List.filter_congr
  intro s hs
  by_cases hr : s.receiver = r
  · rw [h s hs hr]
  · simp [hr]

theorem split_of_filter {p : Sighting → Bool} {r : String} (h : HeardBefore (ss.filter p) w r)
    (hp : ∀ s ∈ ss, s.receiver = r → p s = true) :
    ∃ u v rest, ss = u ++ v :: rest ∧ p v = true ∧ v.receiver = w ∧ ∀ t ∈ u, t.receiver ≠ r := by
  obtain ⟨u', v, rest', hsplit, hvw, hu⟩ := h
  obtain ⟨a, b, rfl, rfl, hb⟩ := List.filter_eq_append_iff.mp hsplit
  obtain ⟨c, d, rfl, hc, hv, -⟩ := List.filter_eq_cons_iff.mp hb
  refine ⟨a ++ c, v, d, by simp, hv, hvw, ?_⟩
  intro t ht htr
  have hpt : p t = true := hp t (by
    rcases List.mem_append.mp ht with hta | htc
    · exact List.mem_append_left _ hta
    · exact List.mem_append_right _ (List.mem_append_left _ htc)) htr
  rcases List.mem_append.mp ht with hta | htc
  · exact hu t (List.mem_filter.mpr ⟨hta, hpt⟩) htr
  · exact hc t htc hpt

/-- The closest receiver of the verified copies has a verified copy that came furthest, where
any verified copy did. -/
theorem furthest_of_closestOf (hmost : ∃ v ∈ ss, v.verified = true ∧ Furthest ss v)
    (h : closestOf (ss.filter Sighting.verified) = some w) :
    ∃ v ∈ ss, v.verified = true ∧ v.receiver = w ∧ Furthest ss v := by
  have hgood : ∀ {s}, s ∈ ss.filter Sighting.verified ↔ s ∈ ss ∧ s.verified = true :=
    List.mem_filter
  obtain ⟨hw, hothers⟩ := closestOf_eq_some_iff.mp h
  obtain ⟨v, hv, hver, htop⟩ := hmost
  have hhops : (v.packet.hopsLeft : ℤ) ≤
      (viewOf (ss.filter Sighting.verified) w).best_hops_left := by
    have hown := (best_hops_left_le.mp le_rfl).2 v (hgood.mpr ⟨hv, hver⟩) rfl
    by_cases hvw : v.receiver = w
    · rw [← hvw]
      exact hown
    · refine hown.trans ?_
      rcases hothers _ hvw ⟨v, hgood.mpr ⟨hv, hver⟩, rfl⟩ with hlt | ⟨heq, -⟩
      · exact Prod.Lex.monotone_fst _ _ hlt.le
      · exact Prod.Lex.monotone_fst _ _ heq.le
  obtain ⟨s, hs, hsw, hle⟩ := exists_hops_of_le hhops
  exact ⟨s, (hgood.mp hs).1, (hgood.mp hs).2, hsw, fun t ht => (htop t ht).trans hle⟩

/-- Another receiver that reaches as far is weaker by all of its copies, or no louder and heard
later than a verified copy of the closest. -/
theorem others_of_closestOf (hfloor : ∀ s ∈ ss, ∀ y ∈ s.rssi_dbm, -999 ≤ y)
    (h : ∀ ts, Thinned ts ss → closestOf ts = some w) {s : Sighting} (hs : s ∈ ss)
    (hne : s.receiver ≠ w) (htop : Furthest ss s) :
    (∀ t ∈ ss, t.receiver = s.receiver →
      level t.rssi_dbm < level (viewOf (ss.filter Sighting.verified) w).rssi_dbm) ∨
    ((∀ t ∈ ss, t.receiver = s.receiver →
        level t.rssi_dbm ≤ level (viewOf (ss.filter Sighting.verified) w).rssi_dbm) ∧
      ∃ u v rest, ss = u ++ v :: rest ∧ v.verified = true ∧ v.receiver = w ∧
        ∀ t ∈ u, t.receiver ≠ s.receiver) := by
  -- Keep the verified copies and all of this receiver's.
  let p : Sighting → Bool := fun t => t.verified || decide (t.receiver = s.receiver)
  have hthin : Thinned (ss.filter p) ss := Thinned.filter ss fun t _ ht => by simp [p, ht]
  have hown : viewOf (ss.filter p) s.receiver = viewOf ss s.receiver := by
    have hall : ss.filter (fun _ => true) = ss := List.filter_eq_self.mpr fun _ _ => rfl
    rw [viewOf_filter (q := fun _ => true) (by simp +contextual [p]), hall]
  have hlead : viewOf (ss.filter p) w = viewOf (ss.filter Sighting.verified) w := by
    apply viewOf_filter
    rintro t - rfl
    simp [p, Ne.symm hne]
  have hheard : Heard (ss.filter p) s.receiver := ⟨s, List.mem_filter.mpr ⟨hs, by simp [p]⟩, rfl⟩
  have hback : (viewOf (ss.filter p) w).best_hops_left ≤
      (viewOf (ss.filter p) s.receiver).best_hops_left := by
    rw [hown]
    refine le_trans ?_ ((best_hops_left_le.mp le_rfl).2 s hs rfl)
    refine best_hops_left_le.mpr ⟨by omega, ?_⟩
    intro t ht _
    exact_mod_cast htop t (hthin.subset t ht)
  have hlevel : ∀ t ∈ ss, t.receiver = s.receiver →
      level t.rssi_dbm ≤ level (viewOf (ss.filter p) s.receiver).rssi_dbm := by
    intro t ht htr
    rw [hown, ← htr]
    exact le_level_viewOf ht fun _ u hu _ => hfloor u hu
  rw [← hlead]
  rcases (closestOf_eq_some_iff.mp (h _ hthin)).2 _ hne hheard with hlt | ⟨heq, hbefore⟩
  · refine Or.inl fun t ht htr => (hlevel t ht htr).trans_lt ?_
    rcases Prod.Lex.toLex_lt_toLex.mp hlt with hless | ⟨-, hless⟩
    · exact absurd hless hback.not_gt
    · exact hless
  · have hsame := congrArg (fun k => (ofLex k).2) heq
    refine Or.inr ⟨fun t ht htr => (hlevel t ht htr).trans (le_of_eq hsame), ?_⟩
    obtain ⟨u, v, rest, hss, hv, hvw, hu⟩ := split_of_filter hbefore (by simp +contextual [p])
    refine ⟨u, v, rest, hss, ?_, hvw, hu⟩
    simpa [p, hvw, Ne.symm hne] using hv

/-- Where every thinning names the same receiver, that receiver leads. -/
theorem leads_of_closestOf (hfloor : ∀ s ∈ ss, ∀ y ∈ s.rssi_dbm, -999 ≤ y)
    (hmost : ∃ v ∈ ss, v.verified = true ∧ Furthest ss v)
    (h : ∀ ts, Thinned ts ss → closestOf ts = some w) :
    Leads ss w (level (viewOf (ss.filter Sighting.verified) w).rssi_dbm) := by
  constructor
  · exact furthest_of_closestOf hmost (h _ (Thinned.filter ss fun _ _ hs => hs))
  · cases hx : (viewOf (ss.filter Sighting.verified) w).rssi_dbm with
    | none => exact Or.inr ⟨le_rfl, fun s hs _ => hfloor s hs⟩
    | some x =>
        obtain ⟨⟨s, hs, hsw, hsx⟩, -⟩ := (rssi_viewOf _ w).1 x hx
        obtain ⟨hmem, hver⟩ := List.mem_filter.mp hs
        exact Or.inl ⟨s, hmem, hver, hsw, hsx⟩
  · exact fun s hs hne htop => others_of_closestOf hfloor h hs hne htop

theorem settled_of_attribution {b : Bucket} {allowCombine : Bool}
    (hver : ∃ s ∈ b.sightings, s.verified = true)
    (hfloor : ∀ s ∈ b.sightings, ∀ y ∈ s.rssi_dbm, -999 ≤ y)
    (h : ∀ c : Bucket, Thinned c.sightings b.sightings →
      (c.build allowCombine).attribution = (b.build allowCombine).attribution) :
    Settled b.sightings := by
  have hne : ∀ ts, Thinned ts b.sightings → ts ≠ [] := by
    obtain ⟨s, hs, hsv⟩ := hver
    exact fun ts hts => List.ne_nil_of_mem (hts.mem_of_verified hs hsv)
  have hthin : Thinned (b.sightings.filter Sighting.verified) b.sightings :=
    Thinned.filter _ fun _ _ hs => hs
  obtain ⟨c, hc⟩ := exists_bucket (hne _ hthin)
  have hsame := h c (hc ▸ hthin)
  have hgood : ∀ {s}, s ∈ c.sightings ↔ s ∈ b.sightings ∧ s.verified = true := by
    rw [hc]
    exact List.mem_filter
  constructor
  · obtain ⟨v, hv, hle⟩ := exists_hops_left_min c allowCombine
    have hmin : (c.build allowCombine).hops_left_min = (b.build allowCombine).hops_left_min :=
      congrArg Attribution.hops_left_min hsame
    have hfew := (le_hops_left_min b allowCombine _).mp (hle.trans_eq hmin)
    exact ⟨v, (hgood.mp hv).1, (hgood.mp hv).2, fun s hs => hfew _ (List.mem_map_of_mem hs)⟩
  · obtain ⟨v, hv, hle⟩ := exists_hops_left_max c allowCombine
    have hmax : (c.build allowCombine).hops_left_max = (b.build allowCombine).hops_left_max :=
      congrArg Attribution.hops_left_max hsame
    have hmost := (hops_left_max_le b allowCombine _).mp (hmax.symm.trans_le hle)
    obtain ⟨w, hw⟩ : ∃ w, closestOf b.sightings = some w := by
      obtain ⟨s, hs, -⟩ := hver
      have hitem : (s.receiver, viewOf b.sightings s.receiver) ∈ (views b.sightings).items :=
        mem_items_views.mpr ⟨⟨s, hs, rfl⟩, rfl⟩
      cases hbest : maxOn closeness (views b.sightings).items with
      | some e => exact ⟨e.1, by rw [closestOf, hbest]; rfl⟩
      | none =>
          rw [maxOn_eq_none_iff.mp hbest] at hitem
          cases hitem
    refine ⟨w, _, leads_of_closestOf hfloor ⟨v, (hgood.mp hv).1, (hgood.mp hv).2, hmost⟩ ?_⟩
    intro ts hts
    obtain ⟨d, rfl⟩ := exists_bucket (hne ts hts)
    exact (congrArg Attribution.closest (h d hts)).trans hw

/-- Leaving out copies that are not verified changes nothing exactly if the verified ones
settle the attribution, where no reading lies below what stands for a missing one. -/
theorem attribution_thinned (b : Bucket) (hver : ∃ s ∈ b.sightings, s.verified = true)
    (allowCombine : Bool) :
    (Settled b.sightings → ∀ c : Bucket, Thinned c.sightings b.sightings →
      (c.build allowCombine).attribution = (b.build allowCombine).attribution) ∧
    ((∀ s ∈ b.sightings, ∀ y ∈ s.rssi_dbm, -999 ≤ y) →
      (∀ c : Bucket, Thinned c.sightings b.sightings →
        (c.build allowCombine).attribution = (b.build allowCombine).attribution) →
      Settled b.sightings) :=
  ⟨fun h _ hthin => attribution_of_settled h hthin allowCombine,
    fun hfloor h => settled_of_attribution hver hfloor h⟩

def verifiedCopy : Sighting := Fusion.commandCopy 0x01#8 0x35#8 "a" (-80) 0

def damagedCopy (rssi_dbm : ℚ) : Sighting := Fusion.commandCopy 0x01#8 0x34#8 "b" rssi_dbm 0

def withCopies (copies : List Sighting) : Bucket := (new verifiedCopy.key verifiedCopy).addAll copies

theorem attribution_weaker_damaged :
    ((withCopies []).build true).attribution =
      ((withCopies [damagedCopy (-90)]).build true).attribution := by
  have hver : verifiedCopy.verified = true := by decide +kernel
  have hthin : Thinned (withCopies []).sightings (withCopies [damagedCopy (-90)]).sightings :=
    .keep verifiedCopy (.leave (by decide +kernel) .nil)
  have hleads : Leads (withCopies [damagedCopy (-90)]).sightings "a" (-80) := by
    refine ⟨⟨verifiedCopy, ?_, hver, rfl, ?_⟩, Or.inl ⟨verifiedCopy, ?_, hver, rfl, rfl⟩, ?_⟩
    · exact List.mem_cons_self
    · decide +kernel
    · exact List.mem_cons_self
    · intro s hs hne _
      have hcases : s = verifiedCopy ∨ s = damagedCopy (-90) := List.mem_pair.mp hs
      rcases hcases with rfl | rfl
      · exact absurd rfl hne
      · exact Or.inl (by decide +kernel)
  refine (attribution_thinned (withCopies [damagedCopy (-90)]) ⟨verifiedCopy, ?_, hver⟩ true).1
    ⟨⟨verifiedCopy, ?_, hver, ?_⟩, "a", -80, hleads⟩ (withCopies []) hthin
  · exact List.mem_cons_self
  · exact List.mem_cons_self
  · decide +kernel

def hoplessCopy : Sighting :=
  Sighting.framed 0x03#8 [0x07#8, 0x93#8, 0x2B#8, 0x52#8, 0x4E#8, 0x29#8, 0x11#8, 0x01#8, 0x35#8,
    0x00#8, 0x00#8, 0xAA#8] "c" (some (-85)) 0

/-- Two damaged copies change the closest receiver and the hops used. -/
theorem attribution_louder_damaged :
    ((withCopies [damagedCopy (-50), hoplessCopy]).build true).attribution = ⟨some "b", 0, 3, 3⟩ ∧
      ((withCopies []).build true).attribution = ⟨some "a", 3, 3, 0⟩ ∧
      ¬ ∀ (b c : Bucket) (allowCombine : Bool), (∃ s ∈ b.sightings, s.verified = true) →
        Thinned c.sightings b.sightings →
        (c.build allowCombine).attribution = (b.build allowCombine).attribution := by
  have hfull : ((withCopies [damagedCopy (-50), hoplessCopy]).build true).attribution =
      ⟨some "b", 0, 3, 3⟩ := by
    decide +kernel
  have halone : ((withCopies []).build true).attribution = ⟨some "a", 3, 3, 0⟩ := by decide +kernel
  refine ⟨hfull, halone, ?_⟩
  intro hclaim
  have hthin : Thinned (withCopies []).sightings (withCopies [damagedCopy (-50), hoplessCopy]).sightings :=
    .keep verifiedCopy (.leave (by decide +kernel) (.leave (by decide +kernel) .nil))
  have hsame := hclaim _ _ true ⟨verifiedCopy, List.mem_cons_self, by decide +kernel⟩ hthin
  rw [hfull, halone] at hsame
  simp at hsame

end Bucket

end InsteonRf
