import Mathlib.Data.List.Sort
import Mathlib.Tactic

/-!
# Selecting from lists

Bounds of running extremes, the first maximum and the least qualifying element under a key, a
stable sort by a key, subsets of fixed size in lexicographic order, the first element of each
key, and the replacement of the first element that qualifies.
-/
namespace Selection

variable {α κ : Type*}

theorem le_foldl_min [LinearOrder κ] (l : List κ) (a x : κ) :
    x ≤ l.foldl min a ↔ x ≤ a ∧ ∀ y ∈ l, x ≤ y := by
  induction l generalizing a with
  | nil => simp
  | cons b l ih => rw [List.foldl_cons, ih, le_min_iff, List.forall_mem_cons, and_assoc]

theorem foldl_max_le [LinearOrder κ] (l : List κ) (a x : κ) :
    l.foldl max a ≤ x ↔ a ≤ x ∧ ∀ y ∈ l, y ≤ x := by
  induction l generalizing a with
  | nil => simp
  | cons b l ih => rw [List.foldl_cons, ih, max_le_iff, List.forall_mem_cons, and_assoc]

/-- One step of a running maximum that keeps the earlier of two equals. -/
def keepMax [LT κ] [DecidableLT κ] (key : α → κ) (best a : α) : α :=
  if key best < key a then a else best

def maxOn [LT κ] [DecidableLT κ] (key : α → κ) : List α → Option α
  | [] => none
  | a :: l => some (l.foldl (keepMax key) a)

theorem foldl_keepMax_mem [LT κ] [DecidableLT κ] (key : α → κ) (l : List α) (a : α) :
    l.foldl (keepMax key) a ∈ a :: l := by
  induction l generalizing a with
  | nil => simp
  | cons b l ih =>
      rw [List.foldl_cons]
      rcases List.mem_cons.mp (ih (keepMax key a b)) with hhead | hrest
      · rw [hhead, keepMax]
        split_ifs <;> simp
      · exact List.mem_cons_of_mem _ (List.mem_cons_of_mem _ hrest)

theorem maxOn_mem [LT κ] [DecidableLT κ] {key : α → κ} {l : List α} {a : α}
    (h : maxOn key l = some a) : a ∈ l := by
  cases l with
  | nil => simp [maxOn] at h
  | cons b l =>
      obtain rfl := Option.some.inj h
      exact foldl_keepMax_mem key l b

theorem maxOn_eq_none_iff [LT κ] [DecidableLT κ] {key : α → κ} {l : List α} :
    maxOn key l = none ↔ l = [] := by
  cases l <;> simp [maxOn]

section First

variable [LinearOrder κ] {key : α → κ}

theorem foldl_keepMax_of_le {l : List α} {a : α} (h : ∀ b ∈ l, key b ≤ key a) :
    l.foldl (keepMax key) a = a := by
  induction l with
  | nil => rfl
  | cons b l ih =>
      obtain ⟨hb, hl⟩ := List.forall_mem_cons.mp h
      rw [List.foldl_cons, keepMax, if_neg (not_lt.mpr hb)]
      exact ih hl

/-- A running maximum stays, or moves to the first of the largest that follow. -/
theorem foldl_keepMax_cases (key : α → κ) (l : List α) (a : α) :
    (l.foldl (keepMax key) a = a ∧ ∀ b ∈ l, key b ≤ key a) ∨
      ∃ u m v, l.foldl (keepMax key) a = m ∧ l = u ++ m :: v ∧ key a < key m ∧
        (∀ b ∈ u, key b < key m) ∧ ∀ b ∈ v, key b ≤ key m := by
  induction l generalizing a with
  | nil => exact Or.inl ⟨rfl, by simp⟩
  | cons c l ih =>
      rw [List.foldl_cons, keepMax]
      split_ifs with hlt
      · rcases ih c with ⟨hc, hle⟩ | ⟨u, m, v, hm, rfl, hcm, hu, hv⟩
        · exact Or.inr ⟨[], c, l, hc, rfl, hlt, by simp, hle⟩
        · exact Or.inr ⟨c :: u, m, v, hm, rfl, hlt.trans hcm, List.forall_mem_cons.mpr ⟨hcm, hu⟩, hv⟩
      · have hca : key c ≤ key a := not_lt.mp hlt
        rcases ih a with ⟨ha, hle⟩ | ⟨u, m, v, hm, rfl, ham, hu, hv⟩
        · exact Or.inl ⟨ha, List.forall_mem_cons.mpr ⟨hca, hle⟩⟩
        · exact Or.inr ⟨c :: u, m, v, hm, rfl, ham,
            List.forall_mem_cons.mpr ⟨hca.trans_lt ham, hu⟩, hv⟩

/-- The first of the largest elements is the one selected. -/
theorem maxOn_eq_some_iff {l : List α} {a : α} :
    maxOn key l = some a ↔
      ∃ u v, l = u ++ a :: v ∧ (∀ b ∈ u, key b < key a) ∧ ∀ b ∈ v, key b ≤ key a := by
  constructor
  · intro h
    cases l with
    | nil => cases h
    | cons c l =>
        obtain rfl := Option.some.inj h
        rcases foldl_keepMax_cases key l c with
          ⟨hc, hle⟩ | ⟨u, m, v, hm, hl, hcm, hu, hv⟩
        · rw [hc]
          exact ⟨[], l, rfl, by simp, hle⟩
        · rw [hm]
          exact ⟨c :: u, v, by rw [hl]; rfl, List.forall_mem_cons.mpr ⟨hcm, hu⟩, hv⟩
  · rintro ⟨u, v, rfl, hu, hv⟩
    cases u with
    | nil => exact congrArg some (foldl_keepMax_of_le hv)
    | cons c u =>
        have hbefore : key (u.foldl (keepMax key) c) < key a := hu _ (foldl_keepMax_mem key u c)
        rw [List.cons_append, maxOn, List.foldl_append, List.foldl_cons, keepMax, if_pos hbefore,
          foldl_keepMax_of_le hv]

end First

section Least

variable [LinearOrder κ] (p : α → Prop) [DecidablePred p] (key : α → κ)

/-- One step of a running minimum over the elements that qualify. -/
def keepLeast (best : Option α) (a : α) : Option α :=
  if p a ∧ ∀ b ∈ best, key a < key b then some a else best

def leastOn (l : List α) : Option α := l.foldl (keepLeast p key) none

theorem keepLeast_spec (best : Option α) (a : α) :
    (∀ c ∈ keepLeast p key best a, c ∈ best ∨ c = a ∧ p c) ∧
      (∀ b, b ∈ best ∨ b = a ∧ p b → ∃ c ∈ keepLeast p key best a, key c ≤ key b) := by
  rw [keepLeast]
  split_ifs with h
  · refine ⟨fun c hc => ?_, fun b hb => ⟨a, rfl, ?_⟩⟩
    · obtain rfl := Option.some.inj hc
      exact Or.inr ⟨rfl, h.1⟩
    · rcases hb with hb | ⟨rfl, -⟩
      · exact (h.2 b hb).le
      · exact le_rfl
  · refine ⟨fun c hc => Or.inl hc, fun b hb => ?_⟩
    rcases hb with hb | ⟨rfl, hp⟩
    · exact ⟨b, hb, le_rfl⟩
    · obtain ⟨c, hc, hle⟩ : ∃ c ∈ best, ¬ key b < key c := by
        by_contra hnone
        exact h ⟨hp, fun c hc => by_contra fun hlt => hnone ⟨c, hc, hlt⟩⟩
      exact ⟨c, hc, not_lt.mp hle⟩

theorem foldl_keepLeast_spec (l : List α) (best : Option α) :
    (∀ c ∈ l.foldl (keepLeast p key) best, c ∈ best ∨ c ∈ l ∧ p c) ∧
      (∀ b, b ∈ best ∨ b ∈ l ∧ p b → ∃ c ∈ l.foldl (keepLeast p key) best, key c ≤ key b) := by
  induction l generalizing best with
  | nil => exact ⟨fun c hc => Or.inl hc, fun b hb => ⟨b, hb.resolve_right (by simp), le_rfl⟩⟩
  | cons a l ih =>
      rw [List.foldl_cons]
      obtain ⟨hmem, hle⟩ := ih (keepLeast p key best a)
      obtain ⟨hmemStep, hleStep⟩ := keepLeast_spec p key best a
      constructor
      · intro c hc
        rcases hmem c hc with hbest | ⟨hl, hp⟩
        · rcases hmemStep c hbest with hbest | ⟨rfl, hp⟩
          · exact Or.inl hbest
          · exact Or.inr ⟨List.mem_cons_self, hp⟩
        · exact Or.inr ⟨List.mem_cons_of_mem a hl, hp⟩
      · have through : ∀ b, b ∈ best ∨ b = a ∧ p b →
            ∃ c ∈ l.foldl (keepLeast p key) (keepLeast p key best a), key c ≤ key b := by
          intro b hb
          obtain ⟨d, hd, hdb⟩ := hleStep b hb
          obtain ⟨c, hc, hcd⟩ := hle d (Or.inl hd)
          exact ⟨c, hc, hcd.trans hdb⟩
        rintro b (hb | ⟨hb, hp⟩)
        · exact through b (Or.inl hb)
        · rcases List.mem_cons.mp hb with rfl | hb
          · exact through b (Or.inr ⟨rfl, hp⟩)
          · exact hle b (Or.inr ⟨hb, hp⟩)

variable {p key}

theorem leastOn_spec {l : List α} {c : α} (h : leastOn p key l = some c) :
    c ∈ l ∧ p c ∧ ∀ b ∈ l, p b → key c ≤ key b := by
  obtain ⟨hmem, hle⟩ := foldl_keepLeast_spec p key l none
  obtain ⟨hl, hp⟩ := (hmem c h).resolve_left (by simp)
  refine ⟨hl, hp, fun b hb hpb => ?_⟩
  obtain ⟨d, hd, hdb⟩ := hle b (Or.inr ⟨hb, hpb⟩)
  obtain rfl := Option.some.inj (h.symm.trans hd)
  exact hdb

theorem leastOn_eq_none_iff {l : List α} : leastOn p key l = none ↔ ∀ b ∈ l, ¬ p b := by
  constructor
  · intro h b hb hp
    obtain ⟨d, hd, -⟩ := (foldl_keepLeast_spec p key l none).2 b (Or.inr ⟨hb, hp⟩)
    exact Option.some_ne_none d (hd.symm.trans h)
  · intro h
    rw [Option.eq_none_iff_forall_ne_some]
    intro c hc
    obtain ⟨hl, hp, -⟩ := leastOn_spec hc
    exact h c hl hp

end Least

def sortOn [LE κ] [DecidableLE κ] (key : α → κ) (l : List α) : List α :=
  l.insertionSort (fun a b => key a ≤ key b)

theorem sortOn_perm [LE κ] [DecidableLE κ] (key : α → κ) (l : List α) : (sortOn key l).Perm l :=
  List.perm_insertionSort _ l

theorem mem_sortOn [LE κ] [DecidableLE κ] {key : α → κ} {l : List α} {a : α} :
    a ∈ sortOn key l ↔ a ∈ l :=
  (sortOn_perm key l).mem_iff

section Stable

variable [LinearOrder κ] {key : α → κ}

/-- A relation of earlier to later elements survives sorting where it also holds of the
pairs that sorting exchanges. -/
theorem pairwise_sortOn {R : α → α → Prop} {l : List α}
    (h : l.Pairwise (fun a b => R a b ∧ (key b < key a → R b a))) : (sortOn key l).Pairwise R := by
  have hinsert : ∀ (a : α) (s : List α), s.Pairwise R →
      (∀ b ∈ s, R a b ∧ (key b < key a → R b a)) →
      (s.orderedInsert (fun a b => key a ≤ key b) a).Pairwise R := by
    intro a s hs hall
    induction s with
    | nil => simp
    | cons b s ih =>
        obtain ⟨hb, hs⟩ := List.pairwise_cons.mp hs
        by_cases hle : key a ≤ key b
        · rw [List.orderedInsert_cons_of_le _ s hle]
          exact List.pairwise_cons.mpr
            ⟨fun c hc => (hall c hc).1, List.pairwise_cons.mpr ⟨hb, hs⟩⟩
        · rw [List.orderedInsert_of_not_le _ s hle]
          refine List.pairwise_cons.mpr ⟨?_, ih hs fun c hc => hall c (List.mem_cons_of_mem b hc)⟩
          intro c hc
          rcases (List.mem_orderedInsert _).mp hc with rfl | hmem
          · exact (hall b List.mem_cons_self).2 (not_le.mp hle)
          · exact hb c hmem
  induction l with
  | nil => exact List.Pairwise.nil
  | cons a l ih =>
      obtain ⟨ha, hl⟩ := List.pairwise_cons.mp h
      exact hinsert a _ (ih hl) fun b hb => ha b (mem_sortOn.mp hb)

theorem sortOn_sorted (key : α → κ) (l : List α) :
    (sortOn key l).Pairwise (fun a b => key a ≤ key b) := by
  have htotal : Std.Total (fun a b => key a ≤ key b) := ⟨fun a b => le_total (key a) (key b)⟩
  have htrans : IsTrans α (fun a b => key a ≤ key b) := ⟨fun _ _ _ => le_trans⟩
  exact List.pairwise_insertionSort _ l

theorem sortOn_of_perm {l s : List κ} (hperm : l.Perm s) (hs : s.Pairwise (· ≤ ·)) :
    sortOn (fun x : κ => x) l = s :=
  List.Perm.eq_of_pairwise' (sortOn_sorted (fun x : κ => x) l) hs ((sortOn_perm _ l).trans hperm)

/-- A map that keeps the order may be applied before or after sorting. -/
theorem sortOn_map {ι : Type*} [LinearOrder ι] {f : ι → κ} (hf : Monotone f) (l : List ι) :
    sortOn (fun x : κ => x) (l.map f) = (sortOn (fun x : ι => x) l).map f := by
  apply sortOn_of_perm ((sortOn_perm _ l).map f).symm
  rw [List.pairwise_map]
  exact (sortOn_sorted (fun x : ι => x) l).imp fun h => hf h

/-- Ranks handed out in the order of a list also rise along the sorted list exactly when
equals in `same` already stood in the order of the key. -/
theorem rank_sortOn_iff {same : α → α → Prop} (hsymm : ∀ a b, same a b → same b a)
    {rank : α → ℕ} {l : List α} (hrank : l.Pairwise (fun a b => same a b → rank a < rank b)) :
    (sortOn key l).Pairwise (fun a b => same a b → rank a < rank b) ↔
      l.Pairwise (fun a b => same a b → key a ≤ key b) := by
  constructor
  · intro h
    -- In the sorted list two equals stand one way round, and so do their ranks and keys.
    have hboth := h.and (sortOn_sorted key l)
    have heither : (sortOn key l).Pairwise (fun a b => same a b →
        (rank a < rank b ∧ key a ≤ key b) ∨ (rank b < rank a ∧ key b ≤ key a)) :=
      hboth.imp fun hab hsame => Or.inl ⟨hab.1 hsame, hab.2⟩
    have hperm := (sortOn_perm key l).pairwise heither
      fun {a b} hab hsame => (hab (hsymm b a hsame)).symm
    refine (hperm.and hrank).imp ?_
    intro a b hab hsame
    rcases hab.1 hsame with ⟨-, hle⟩ | ⟨hlt, -⟩
    · exact hle
    · exact absurd (hab.2 hsame) hlt.asymm
  · intro h
    apply pairwise_sortOn
    refine (h.and hrank).imp ?_
    intro a b hab
    refine ⟨hab.2, ?_⟩
    intro hlt hsame
    exact absurd (hab.1 (hsymm b a hsame)) (not_le.mpr hlt)

end Stable

/-- The sublists of length `n`, in lexicographic order of position. -/
def combinations : List α → ℕ → List (List α)
  | _, 0 => [[]]
  | [], _ + 1 => []
  | a :: l, n + 1 => (combinations l n).map (a :: ·) ++ combinations l (n + 1)

theorem combinations_sublist {l c : List α} {n : ℕ} (h : c ∈ combinations l n) :
    c.Sublist l ∧ c.length = n := by
  induction l generalizing n c with
  | nil =>
      cases n with
      | zero =>
          rw [List.mem_singleton.mp h]
          exact ⟨List.Sublist.refl _, rfl⟩
      | succ n => cases h
  | cons a l ih =>
      cases n with
      | zero =>
          rw [List.mem_singleton.mp h]
          exact ⟨List.nil_sublist _, rfl⟩
      | succ n =>
          rw [combinations, List.mem_append, List.mem_map] at h
          rcases h with ⟨d, hd, rfl⟩ | hrest
          · obtain ⟨hsub, hlen⟩ := ih hd
            exact ⟨hsub.cons_cons a, by rw [List.length_cons, hlen]⟩
          · obtain ⟨hsub, hlen⟩ := ih hrest
            exact ⟨hsub.cons a, hlen⟩

theorem mem_combinations_iff {l c : List α} {n : ℕ} :
    c ∈ combinations l n ↔ c.Sublist l ∧ c.length = n := by
  refine ⟨combinations_sublist, ?_⟩
  rintro ⟨hsub, rfl⟩
  induction hsub with
  | slnil => exact List.mem_singleton_self _
  | @cons c l a hsub ih =>
      cases c with
      | nil => exact List.mem_singleton_self _
      | cons b c => exact List.mem_append_right _ ih
  | @cons_cons c l a hsub ih => exact List.mem_append_left _ (List.mem_map_of_mem ih)

/-- The nonempty sublists up to a size, smaller ones first. -/
def combinationsUpTo (l : List α) (m : ℕ) : List (List α) :=
  (List.range m).flatMap (fun k => combinations l (k + 1))

theorem mem_combinationsUpTo {l c : List α} {m : ℕ} :
    c ∈ combinationsUpTo l m ↔ c.Sublist l ∧ c ≠ [] ∧ c.length ≤ m := by
  simp only [combinationsUpTo, List.mem_flatMap, List.mem_range, mem_combinations_iff]
  constructor
  · rintro ⟨k, hk, hsub, hlen⟩
    refine ⟨hsub, ?_, by omega⟩
    rintro rfl
    cases hlen
  · rintro ⟨hsub, hne, hlen⟩
    have hpos := List.length_pos_iff.mpr hne
    exact ⟨c.length - 1, by omega, hsub, by omega⟩

/-- A search through them answers with one of the smallest. -/
theorem find?_combinationsUpTo_min {p : List α → Bool} {l c : List α} {m : ℕ}
    (h : (combinationsUpTo l m).find? p = some c) {d : List α}
    (hd : d ∈ combinationsUpTo l m) (hp : p d = true) : c.length ≤ d.length := by
  by_contra hlt
  obtain ⟨hsub, hne, hlen⟩ := mem_combinationsUpTo.mp (List.mem_of_find?_eq_some h)
  obtain ⟨hdsub, hdne, -⟩ := mem_combinationsUpTo.mp hd
  obtain ⟨r, rfl⟩ := Nat.exists_eq_add_of_le (show c.length - 1 ≤ m by omega)
  have hsplit : combinationsUpTo l (c.length - 1 + r) = combinationsUpTo l (c.length - 1) ++
      ((List.range r).map (c.length - 1 + ·)).flatMap (fun k => combinations l (k + 1)) := by
    rw [combinationsUpTo, List.range_add, List.flatMap_append]
    rfl
  have hmem : d ∈ combinationsUpTo l (c.length - 1) :=
    mem_combinationsUpTo.mpr ⟨hdsub, hdne, by omega⟩
  -- the smaller sizes come first, so the search would have stopped at one of them
  cases hfirst : (combinationsUpTo l (c.length - 1)).find? p with
  | none => exact List.find?_eq_none.mp hfirst d hmem hp
  | some e =>
      rw [hsplit, List.find?_append, hfirst, Option.some_or] at h
      obtain rfl := Option.some.inj h
      obtain ⟨-, -, hshort⟩ := mem_combinationsUpTo.mp (List.mem_of_find?_eq_some hfirst)
      have hpos := List.length_pos_iff.mpr hne
      omega

/-- The first element of each key, leaving out the keys already seen. -/
def firstOfEach [DecidableEq κ] (key : α → κ) : List κ → List α → List α
  | _, [] => []
  | seen, a :: l =>
      if key a ∈ seen then firstOfEach key seen l else a :: firstOfEach key (key a :: seen) l

theorem mem_of_mem_firstOfEach [DecidableEq κ] {key : α → κ} {seen : List κ} {l : List α} {a : α}
    (h : a ∈ firstOfEach key seen l) : a ∈ l := by
  induction l generalizing seen with
  | nil => simp [firstOfEach] at h
  | cons b l ih =>
      rw [firstOfEach] at h
      split_ifs at h with hseen
      · exact List.mem_cons_of_mem b (ih h)
      · rcases List.mem_cons.mp h with rfl | hrest
        · exact List.mem_cons_self
        · exact List.mem_cons_of_mem b (ih hrest)

theorem nodup_firstOfEach [DecidableEq κ] (key : α → κ) (seen : List κ) (l : List α) :
    ((firstOfEach key seen l).map key).Nodup ∧ ∀ a ∈ firstOfEach key seen l, key a ∉ seen := by
  induction l generalizing seen with
  | nil => simp [firstOfEach]
  | cons a l ih =>
      rw [firstOfEach]
      split_ifs with ha
      · exact ih seen
      · obtain ⟨hnodup, hfresh⟩ := ih (key a :: seen)
        constructor
        · rw [List.map_cons, List.nodup_cons]
          refine ⟨?_, hnodup⟩
          intro hmem
          obtain ⟨b, hb, hkey⟩ := List.mem_map.mp hmem
          exact hfresh b hb (by rw [hkey]; exact List.mem_cons_self)
        · intro b hb
          rcases List.mem_cons.mp hb with rfl | hrest
          · exact ha
          · exact fun hmem => hfresh b hrest (List.mem_cons_of_mem _ hmem)

/-- Every key not seen before is represented, by the first element that has it. -/
theorem firstOfEach_first [DecidableEq κ] (key : α → κ) (seen : List κ) (u v : List α) (a : α)
    (hseen : key a ∉ seen) :
    ∃ b ∈ firstOfEach key seen (u ++ a :: v), key b = key a ∧ (b = a ∨ b ∈ u) := by
  induction u generalizing seen with
  | nil =>
      rw [List.nil_append, firstOfEach, if_neg hseen]
      exact ⟨a, List.mem_cons_self, rfl, Or.inl rfl⟩
  | cons c u ih =>
      rw [List.cons_append, firstOfEach]
      split_ifs with hc
      · obtain ⟨b, hb, hkey, hfrom⟩ := ih seen hseen
        exact ⟨b, hb, hkey, hfrom.imp_right (List.mem_cons_of_mem c)⟩
      · by_cases heq : key a = key c
        · exact ⟨c, List.mem_cons_self, heq.symm, Or.inr List.mem_cons_self⟩
        · obtain ⟨b, hb, hkey, hfrom⟩ := ih (key c :: seen) (by simp [heq, hseen])
          exact ⟨b, List.mem_cons_of_mem c hb, hkey, hfrom.imp_right (List.mem_cons_of_mem c)⟩

/-- Replace the first element that satisfies the test, if there is one. -/
def updateFirst (p : α → Bool) (f : α → α) : List α → Option (List α)
  | [] => none
  | a :: l => if p a then some (f a :: l) else (updateFirst p f l).map (a :: ·)

theorem updateFirst_eq_some {p : α → Bool} {f : α → α} {l l' : List α}
    (h : updateFirst p f l = some l') :
    ∃ u a v, l = u ++ a :: v ∧ l' = u ++ f a :: v ∧ p a = true ∧ l.find? p = some a := by
  induction l generalizing l' with
  | nil => simp [updateFirst] at h
  | cons a l ih =>
      by_cases hp : p a = true
      · simp only [updateFirst, hp, if_true, Option.some.injEq] at h
        exact ⟨[], a, l, rfl, h.symm, hp, by rw [List.find?_cons_of_pos hp]⟩
      · simp only [updateFirst, hp, Bool.false_eq_true, if_false] at h
        obtain ⟨m, hm, rfl⟩ := Option.map_eq_some_iff.mp h
        obtain ⟨u, b, v, rfl, rfl, hb, hfind⟩ := ih hm
        exact ⟨a :: u, b, v, rfl, rfl, hb, by rw [List.find?_cons_of_neg hp, hfind]⟩

theorem updateFirst_eq_none {p : α → Bool} {f : α → α} {l : List α}
    (h : updateFirst p f l = none) : l.find? p = none := by
  induction l with
  | nil => rfl
  | cons a l ih =>
      by_cases hp : p a = true
      · simp [updateFirst, hp] at h
      · simp only [updateFirst, hp, Bool.false_eq_true, if_false, Option.map_eq_none_iff] at h
        rw [List.find?_cons_of_neg hp, ih h]

end Selection
