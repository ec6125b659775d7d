import InsteonRf.ClockSkew

/-!
# What the clocks are learned to

Only differences between receivers matter to `ClockSkew.learn`: the learned offsets have
median zero, within the clamp, and no constant added to all times of a call is seen.
-/
namespace InsteonRf
open OrderedDict Selection

theorem median_of_perm {l s : List ℚ} (h : l.Perm s) : median l = median s := by
  have hsort : sortOn (fun x : ℚ => x) l = sortOn (fun x : ℚ => x) s :=
    sortOn_of_perm (h.trans (sortOn_perm _ s).symm) (sortOn_sorted (fun x : ℚ => x) s)
  rw [median, median, hsort]

/-- A median is the mean of two elements, and they stay the middle under every monotone map. -/
theorem median_middle {l : List ℚ} (h : l ≠ []) :
    ∃ a b, ∀ f : ℚ → ℚ, Monotone f → median (l.map f) = (f a + f b) / 2 := by
  set s := sortOn (fun x : ℚ => x) l with hs
  have hlength : 0 < s.length := by
    rw [hs, (sortOn_perm _ l).length_eq]
    exact List.length_pos_iff.mpr h
  have hget : ∀ (f : ℚ → ℚ) (i : ℕ), i < s.length → (s.map f).getD i 0 = f (s.getD i 0) := by
    intro f i hi
    simp [List.getD_eq_getElem?_getD, hi]
  refine ⟨s.getD (if s.length % 2 = 1 then s.length / 2 else s.length / 2 - 1) 0,
    s.getD (s.length / 2) 0, ?_⟩
  intro f hf
  rw [median, sortOn_map hf, ← hs, List.length_map]
  split_ifs with hodd
  · rw [hget f _ (by omega)]
    ring
  · rw [hget f _ (by omega), hget f _ (by omega)]

theorem median_add {l : List ℚ} (h : l ≠ []) (c : ℚ) :
    median (l.map (· + c)) = median l + c := by
  obtain ⟨a, b, hmiddle⟩ := median_middle h
  have hplain := hmiddle id monotone_id
  rw [List.map_id] at hplain
  rw [hmiddle (· + c) (fun x y hxy => add_le_add_left hxy c), hplain, id, id]
  ring

/-- A median of zero stays zero under a monotone map that treats both signs alike. -/
theorem median_map_eq_zero {l : List ℚ} (h : l ≠ []) (hzero : median l = 0) {f : ℚ → ℚ}
    (hf : Monotone f) (hodd : ∀ x, f (-x) = -f x) : median (l.map f) = 0 := by
  obtain ⟨a, b, hmiddle⟩ := median_middle h
  have hplain := hmiddle id monotone_id
  rw [List.map_id, hzero, id, id] at hplain
  have hb : b = -a := by linarith
  rw [hmiddle f hf, hb, hodd]
  ring

def clamp (bound x : ℚ) : ℚ := max (-bound) (min bound x)

theorem clamp_mono (bound : ℚ) : Monotone (clamp bound) :=
  fun _ _ h => max_le_max le_rfl (min_le_min le_rfl h)

theorem clamp_neg {bound : ℚ} (h : 0 ≤ bound) (x : ℚ) : clamp bound (-x) = -clamp bound x := by
  have hbound : -bound ≤ bound := by linarith
  rw [clamp, clamp, max_min_distrib_left, max_eq_right hbound, ← min_neg_neg, neg_neg,
    ← max_neg_neg]

theorem clamp_le {bound : ℚ} (h : 0 ≤ bound) (x : ℚ) : -bound ≤ clamp bound x ∧ clamp bound x ≤ bound :=
  ⟨le_max_left _ _, max_le (by linarith) (min_le_left _ _)⟩

namespace ClockSkew

/-- The origin time that the receivers agree on, each corrected by what is known of it. -/
def consensus (k : ClockSkew) (raw : Dict String Time) : Time :=
  median (raw.items.map (fun e => e.2 - k.offset e.1))

/-- One receiver's sample: where it placed the message, less where all did. -/
def sample (keep : ℕ) (middle : Time) (d : Dict String (List Time)) (e : String × Time) :
    Dict String (List Time) :=
  d.set e.1 (push keep ((d.get e.1).getD []) (e.2 - middle))

def sampled (k : ClockSkew) (raw : Dict String Time) : Dict String (List Time) :=
  raw.items.foldl (sample k.keep (k.consensus raw)) k.samples

def ready (k : ClockSkew) (samples : Dict String (List Time)) : List (String × Time) :=
  (samples.items.filter (fun e => decide (k.min_samples ≤ e.2.length))).map
    (fun e => (e.1, median e.2))

def recentred (k : ClockSkew) (ready : List (String × Time)) : List (String × Time) :=
  ready.map (fun e => (e.1, clamp k.max_abs_s (e.2 - median (ready.map Prod.snd))))

/-- All that a message can do: nothing, or more samples and the offsets of the ready receivers. -/
theorem learn_eq (k : ClockSkew) (raw : Dict String Time) :
    k.learn raw = if raw.items.length < 2 then k
      else { k with
        samples := k.sampled raw
        offsets := (k.recentred (k.ready (k.sampled raw))).foldl
          (fun d e => d.set e.1 e.2) k.offsets } := by
  rw [learn]
  split_ifs with hfew
  · rfl
  · rw [recentred, List.foldl_map]
    by_cases hready : k.ready (k.sampled raw) = []
    · rw [hready]
      exact if_pos hready
    · exact if_neg hready

theorem keys_recentred (k : ClockSkew) (ready : List (String × Time)) :
    (k.recentred ready).map Prod.fst = ready.map Prod.fst := by
  rw [recentred, List.map_map]
  rfl

theorem values_recentred (k : ClockSkew) (ready : List (String × Time)) :
    (k.recentred ready).map Prod.snd =
      ((ready.map Prod.snd).map (· + -median (ready.map Prod.snd))).map (clamp k.max_abs_s) := by
  simp only [recentred, List.map_map, Function.comp_def, sub_eq_add_neg]

theorem median_recentred {k : ClockSkew} (hmax : 0 ≤ k.max_abs_s) {ready : List (String × Time)}
    (h : ready ≠ []) : median ((k.recentred ready).map Prod.snd) = 0 := by
  have hvalues : ready.map Prod.snd ≠ [] := by simpa using h
  rw [values_recentred]
  apply median_map_eq_zero (by simpa using h) _ (clamp_mono _) (clamp_neg hmax)
  rw [median_add hvalues]
  exact add_neg_cancel _

theorem nodup_ready (k : ClockSkew) (samples : Dict String (List Time)) :
    ((k.ready samples).map Prod.fst).Nodup := by
  rw [ready, List.map_map]
  exact nodup_filter samples.nodup _

theorem mem_keys_ready {k : ClockSkew} {samples : Dict String (List Time)} {r : String}
    {q : List Time} (h : samples.get r = some q) (hq : k.min_samples ≤ q.length) :
    r ∈ (k.ready samples).map Prod.fst := by
  rw [ready, List.map_map]
  have hmem : (r, q) ∈ samples.items := Dict.get_eq_some_iff.mp h
  exact List.mem_map_of_mem (f := Prod.fst) (List.mem_filter.mpr ⟨hmem, decide_eq_true hq⟩)

theorem length_push (keep : ℕ) (q : List Time) (x : Time) :
    (push keep q x).length = min keep (q.length + 1) := by
  simp only [push, List.length_drop, List.length_append, List.length_singleton]
  omega

theorem sample_grows {keep : ℕ} {d : Dict String (List Time)}
    (hd : ∀ r q, d.get r = some q → q.length ≤ keep) (middle : Time) (e : String × Time) :
    (∀ r q, (sample keep middle d e).get r = some q → q.length ≤ keep) ∧
      ∀ r q, d.get r = some q →
        ∃ q', (sample keep middle d e).get r = some q' ∧ q.length ≤ q'.length := by
  constructor
  · intro r q hq
    by_cases hr : r = e.1
    · rw [hr, sample, Dict.get_set_self] at hq
      rw [← Option.some.inj hq, length_push]
      exact min_le_left _ _
    · rw [sample, Dict.get_set_of_ne _ hr] at hq
      exact hd r q hq
  · intro r q hq
    by_cases hr : r = e.1
    · subst hr
      refine ⟨_, Dict.get_set_self _ _ _, ?_⟩
      rw [length_push, hq, Option.getD_some]
      exact le_min (hd e.1 q hq) (Nat.le_succ _)
    · exact ⟨q, (Dict.get_set_of_ne _ hr _).trans hq, le_rfl⟩

theorem foldl_sample_grows {keep : ℕ} (middle : Time) (l : List (String × Time))
    {d : Dict String (List Time)} (hd : ∀ r q, d.get r = some q → q.length ≤ keep) :
    (∀ r q, (l.foldl (sample keep middle) d).get r = some q → q.length ≤ keep) ∧
      ∀ r q, d.get r = some q →
        ∃ q', (l.foldl (sample keep middle) d).get r = some q' ∧ q.length ≤ q'.length := by
  induction l generalizing d with
  | nil => exact ⟨hd, fun r q hq => ⟨q, hq, le_rfl⟩⟩
  | cons e l ih =>
      obtain ⟨hshort, hgrow⟩ := sample_grows hd middle e
      obtain ⟨hshort', hgrow'⟩ := ih hshort
      refine ⟨hshort', ?_⟩
      intro r q hq
      obtain ⟨q', hq', hle⟩ := hgrow r q hq
      obtain ⟨q'', hq'', hle'⟩ := hgrow' r q' hq'
      exact ⟨q'', hq'', hle.trans hle'⟩

structure Centred (k : ClockSkew) : Prop where
  short : ∀ r q, k.samples.get r = some q → q.length ≤ k.keep
  heard : ∀ r ∈ k.offsets.keys, ∃ q, k.samples.get r = some q ∧ k.min_samples ≤ q.length
  bounded : ∀ e ∈ k.offsets.items, -k.max_abs_s ≤ e.2 ∧ e.2 ≤ k.max_abs_s
  middle : k.offsets.items ≠ [] → median k.offsets.values = 0

/-- The ready receivers include those with an offset, so all offsets are learned anew. -/
theorem learn_centred {k : ClockSkew} (hmax : 0 ≤ k.max_abs_s) (h : k.Centred)
    (raw : Dict String Time) : (k.learn raw).Centred := by
  rw [learn_eq]
  split_ifs with hfew
  · exact h
  · obtain ⟨hshort, hgrow⟩ := foldl_sample_grows (k.consensus raw) raw.items h.short
    have hready : ∀ r ∈ k.offsets.keys, ∃ q, (k.sampled raw).get r = some q ∧
        k.min_samples ≤ q.length := by
      intro r hr
      obtain ⟨q, hq, hle⟩ := h.heard r hr
      obtain ⟨q', hq', hlonger⟩ := hgrow r q hq
      exact ⟨q', hq', hle.trans hlonger⟩
    set ready := k.ready (k.sampled raw) with hset
    have hnodup : ((k.recentred ready).map Prod.fst).Nodup := by
      rw [keys_recentred]
      exact nodup_ready k _
    have hperm : ((k.recentred ready).foldl (fun d e => d.set e.1 e.2) k.offsets).items.Perm
        (k.recentred ready) := by
      apply Dict.foldl_set_perm hnodup
      intro r hr
      obtain ⟨q, hq, hle⟩ := hready r hr
      rw [keys_recentred]
      exact mem_keys_ready hq hle
    refine ⟨hshort, ?_, ?_, ?_⟩
    · intro r hr
      have hmem := (hperm.map Prod.fst).mem_iff.mp hr
      rw [keys_recentred, hset, ClockSkew.ready, List.map_map] at hmem
      obtain ⟨e, he, rfl⟩ := List.mem_map.mp hmem
      obtain ⟨hitem, hle⟩ := List.mem_filter.mp he
      exact ⟨e.2, Dict.get_eq_some_iff.mpr hitem, of_decide_eq_true hle⟩
    · intro e he
      have hmem := hperm.mem_iff.mp he
      rw [recentred] at hmem
      obtain ⟨f, -, rfl⟩ := List.mem_map.mp hmem
      exact clamp_le hmax _
    · intro hsome
      have hne : ready ≠ [] := by
        intro hnil
        have hempty : k.recentred ready = [] := by
          rw [hnil]
          rfl
        exact hsome (hperm.trans (List.Perm.of_eq hempty)).eq_nil
      exact (median_of_perm (hperm.map Prod.snd)).trans (median_recentred hmax hne)

def states (k : ClockSkew) (messages : List (Dict String Time)) : List ClockSkew :=
  messages.scanl learn k

theorem states_centred {k : ClockSkew} (hmax : 0 ≤ k.max_abs_s) (h : k.Centred)
    (messages : List (Dict String Time)) :
    ∀ s ∈ k.states messages, s.Centred ∧ s.max_abs_s = k.max_abs_s := by
  induction messages generalizing k with
  | nil => simpa [states] using h
  | cons raw messages ih =>
      have hsame : (k.learn raw).max_abs_s = k.max_abs_s := by
        rw [learn_eq]
        split_ifs <;> rfl
      intro s hs
      rw [states, List.scanl_cons, List.mem_cons] at hs
      rcases hs with rfl | hrest
      · exact ⟨h, rfl⟩
      · obtain ⟨hcentred, hbound⟩ := ih (hsame ▸ hmax) (learn_centred hmax h raw) s hrest
        exact ⟨hcentred, hbound.trans hsame⟩

/-- From the first message on no offset leaves the clamp, and the receivers' median offset is
zero. -/
theorem offsets_centred (min_samples keep : ℕ) {max_abs_s : ℚ} (hmax : 0 ≤ max_abs_s)
    (messages : List (Dict String Time)) :
    ∀ s ∈ states { min_samples, keep, max_abs_s } messages,
      (∀ r x, s.offsets.get r = some x → -max_abs_s ≤ x ∧ x ≤ max_abs_s) ∧
        (s.offsets.items ≠ [] → median s.offsets.values = 0) := by
  intro s hs
  have hfresh : Centred { min_samples, keep, max_abs_s } := by
    refine ⟨?_, ?_, ?_, ?_⟩
    · intro r q hq
      cases hq
    · intro r hr
      cases hr
    · intro e he
      cases he
    · intro hsome
      exact absurd rfl hsome
  obtain ⟨hcentred, hbound⟩ := states_centred hmax hfresh messages s hs
  refine ⟨?_, hcentred.middle⟩
  intro r x hx
  rw [← show s.max_abs_s = max_abs_s from hbound]
  exact hcentred.bounded (r, x) (Dict.get_eq_some_iff.mp hx)

/-- Two messages heard by three receivers, one of which is past the clamp. -/
def threeClocks : List (Dict String Time) :=
  [⟨[("a", 0), ("b", 1 / 2), ("c", 9)], by decide⟩, ⟨[("c", 20), ("a", 10)], by decide⟩]

theorem offsets_centred_threeClocks :
    (states { min_samples := 1, keep := 4, max_abs_s := 2 } threeClocks).map
        (fun s => s.offsets.items) =
      [[], [("a", -1 / 2), ("b", 0), ("c", 2)], [("a", -2), ("b", 0), ("c", 2)]] ∧
    ∀ s ∈ states { min_samples := 1, keep := 4, max_abs_s := 2 } threeClocks,
      (∀ r x, s.offsets.get r = some x → -2 ≤ x ∧ x ≤ 2) ∧
        (s.offsets.items ≠ [] → median s.offsets.values = 0) :=
  ⟨by decide +kernel, offsets_centred 1 4 (by norm_num) threeClocks⟩

/-- No constant that is added to a whole message is learned. -/
theorem learn_shifted (k : ClockSkew) (raw : Dict String Time) (c : Time) :
    k.learn (raw.mapValues (· + c)) = k.learn raw := by
  have hitems : (raw.mapValues (· + c)).items = raw.items.map (fun e => (e.1, e.2 + c)) := rfl
  rw [learn_eq, learn_eq, hitems, List.length_map]
  split_ifs with hfew
  · rfl
  · have hconsensus : k.consensus (raw.mapValues (· + c)) = k.consensus raw + c := by
      have hne : raw.items.map (fun e => e.2 - k.offset e.1) ≠ [] := by
        intro hnil
        rw [List.map_eq_nil_iff.mp hnil] at hfew
        exact hfew (by decide)
      rw [consensus, consensus, ← median_add hne, hitems, List.map_map, List.map_map]
      congr 1
      apply List.map_congr_left
      intro e _
      simp only [Function.comp_apply]
      ring
    have hsampled : k.sampled (raw.mapValues (· + c)) = k.sampled raw := by
      rw [sampled, sampled, hconsensus, hitems, List.foldl_map]
      simp only [sample, add_sub_add_right_eq_sub]
      rfl
    rw [hsampled]

/-- Every state is the same whatever constant is added to the times of each message. -/
theorem states_shifted (k : ClockSkew) (messages : List (Dict String Time × Time)) :
    k.states (messages.map (fun m => m.1.mapValues (· + m.2))) =
      k.states (messages.map Prod.fst) := by
  induction messages generalizing k with
  | nil => rfl
  | cons m messages ih =>
      rw [List.map_cons, List.map_cons, states, states, List.scanl_cons, List.scanl_cons,
        learn_shifted]
      exact congrArg (k :: ·) (ih (k.learn m.1))

end ClockSkew

end InsteonRf
