import Mathlib.Data.List.Nodup
import Mathlib.Algebra.BigOperators.Group.List.Basic
import Mathlib.Tactic

/-!
# Insertion-ordered dictionaries

A finite map that remembers the order in which its keys were first written.
Writing to a key that is present keeps its place, writing to a new key appends.
-/
namespace OrderedDict

variable {α β γ : Type*}

structure Dict (α β : Type*) where
  items : List (α × β)
  nodup : (items.map Prod.fst).Nodup

theorem Dict.ext {d e : Dict α β} (h : d.items = e.items) : d = e := by
  cases d
  cases e
  cases h
  rfl

def lookup [DecidableEq α] : List (α × β) → α → Option β
  | [], _ => none
  | (a, b) :: l, k => if a = k then some b else lookup l k

def write [DecidableEq α] : List (α × β) → α → β → List (α × β)
  | [], k, v => [(k, v)]
  | (a, b) :: l, k, v => if a = k then (k, v) :: l else (a, b) :: write l k v

/-- The entries under every key but `k`, in their order. -/
def without [DecidableEq α] (l : List (α × β)) (k : α) : List (α × β) :=
  l.filter (fun e => decide (e.1 ≠ k))

section Lists
variable [DecidableEq α]

theorem lookup_eq_none_iff {l : List (α × β)} {k : α} :
    lookup l k = none ↔ k ∉ l.map Prod.fst := by
  induction l with
  | nil => simp [lookup]
  | cons e l ih =>
      obtain ⟨a, b⟩ := e
      by_cases h : a = k
      · simp [lookup, h]
      · simp [lookup, h, ih, Ne.symm h]

theorem mem_of_lookup {l : List (α × β)} {k : α} {v : β} (h : lookup l k = some v) :
    (k, v) ∈ l := by
  induction l with
  | nil => simp [lookup] at h
  | cons e l ih =>
      obtain ⟨a, b⟩ := e
      by_cases hk : a = k
      · simp only [lookup, hk, if_true, Option.some.injEq] at h
        simp [hk, h]
      · simp only [lookup, hk, if_false] at h
        exact List.mem_cons_of_mem _ (ih h)

theorem lookup_of_mem {l : List (α × β)} (hl : (l.map Prod.fst).Nodup) {k : α} {v : β}
    (h : (k, v) ∈ l) : lookup l k = some v := by
  induction l with
  | nil => simp at h
  | cons e l ih =>
      obtain ⟨a, b⟩ := e
      rw [List.map_cons, List.nodup_cons] at hl
      rcases List.mem_cons.mp h with heq | hmem
      · obtain ⟨rfl, rfl⟩ := Prod.mk.inj heq
        simp [lookup]
      · have hne : a ≠ k := by
          rintro rfl
          exact hl.1 (List.mem_map.mpr ⟨(a, v), hmem, rfl⟩)
        simp only [lookup, hne, if_false]
        exact ih hl.2 hmem

theorem without_of_lookup_none {l : List (α × β)} {k : α} (h : lookup l k = none) :
    without l k = l := by
  rw [lookup_eq_none_iff] at h
  apply List.filter_eq_self.mpr
  intro e he
  have hne : e.1 ≠ k := fun hk => h (hk ▸ List.mem_map_of_mem he)
  simpa using hne

theorem without_cons_of_ne (l : List (α × β)) {a k : α} (h : a ≠ k) (b : β) :
    without ((a, b) :: l) k = (a, b) :: without l k := by
  simp [without, h]

theorem without_cons_self {l : List (α × β)} {k : α} (h : k ∉ l.map Prod.fst) (b : β) :
    without ((k, b) :: l) k = l := by
  have hrest : without l k = l := without_of_lookup_none (lookup_eq_none_iff.mpr h)
  rw [← hrest]
  simp [without]

theorem lookup_write_self (l : List (α × β)) (k : α) (v : β) :
    lookup (write l k v) k = some v := by
  induction l with
  | nil => simp [write, lookup]
  | cons e l ih =>
      obtain ⟨a, b⟩ := e
      by_cases h : a = k
      · simp [write, lookup, h]
      · simp [write, lookup, h, ih]

theorem lookup_write_of_ne (l : List (α × β)) {k j : α} (hj : j ≠ k) (v : β) :
    lookup (write l k v) j = lookup l j := by
  induction l with
  | nil => simp [write, lookup, Ne.symm hj]
  | cons e l ih =>
      obtain ⟨a, b⟩ := e
      by_cases h : a = k
      · simp [write, lookup, h, Ne.symm hj]
      · simp [write, lookup, h, ih]

theorem keys_write (l : List (α × β)) (k : α) (v : β) :
    (write l k v).map Prod.fst =
      if k ∈ l.map Prod.fst then l.map Prod.fst else l.map Prod.fst ++ [k] := by
  induction l with
  | nil => simp [write]
  | cons e l ih =>
      obtain ⟨a, b⟩ := e
      by_cases h : a = k
      · simp [write, h]
      · simp only [write, h, if_false, List.map_cons, ih, List.mem_cons, Ne.symm h, false_or]
        split_ifs <;> simp

theorem nodup_write {l : List (α × β)} (hl : (l.map Prod.fst).Nodup) (k : α) (v : β) :
    ((write l k v).map Prod.fst).Nodup := by
  rw [keys_write]
  split_ifs with h
  · exact hl
  · apply List.Nodup.append hl (List.nodup_singleton k)
    simpa [List.disjoint_singleton] using h

omit [DecidableEq α] in
theorem nodup_filter {l : List (α × β)} (hl : (l.map Prod.fst).Nodup) (p : α × β → Bool) :
    ((l.filter p).map Prod.fst).Nodup :=
  hl.sublist (List.filter_sublist.map _)

/-- A write replaces the entry under its key and touches no other. -/
theorem write_perm {l : List (α × β)} (hl : (l.map Prod.fst).Nodup) (k : α) (v : β) :
    (write l k v).Perm ((k, v) :: without l k) := by
  induction l with
  | nil => simp [write, without]
  | cons e l ih =>
      obtain ⟨a, b⟩ := e
      rw [List.map_cons, List.nodup_cons] at hl
      by_cases h : a = k
      · subst h
        rw [without_cons_self hl.1]
        simp [write]
      · rw [without_cons_of_ne l h]
        simp only [write, h, if_false]
        exact ((ih hl.2).cons (a, b)).trans (List.Perm.swap _ _ _)

theorem perm_without {l : List (α × β)} (hl : (l.map Prod.fst).Nodup) {k : α} {v : β}
    (h : lookup l k = some v) : l.Perm ((k, v) :: without l k) := by
  induction l with
  | nil => simp [lookup] at h
  | cons e l ih =>
      obtain ⟨a, b⟩ := e
      rw [List.map_cons, List.nodup_cons] at hl
      by_cases hk : a = k
      · subst hk
        simp only [lookup, if_true, Option.some.injEq] at h
        rw [without_cons_self hl.1, h]
      · rw [without_cons_of_ne l hk]
        simp only [lookup, hk, if_false] at h
        exact ((ih hl.2 h).cons (a, b)).trans (List.Perm.swap _ _ _)

end Lists

namespace Dict

def empty : Dict α β := ⟨[], by simp⟩

def values (d : Dict α β) : List β := d.items.map Prod.snd

def keys (d : Dict α β) : List α := d.items.map Prod.fst

def mapValues (f : β → γ) (d : Dict α β) : Dict α γ :=
  ⟨d.items.map (fun e => (e.1, f e.2)), by simpa [List.map_map, Function.comp_def] using d.nodup⟩

@[simp] theorem values_empty : (empty : Dict α β).values = [] := rfl

@[simp] theorem items_empty : (empty : Dict α β).items = [] := rfl

variable [DecidableEq α]

def get (d : Dict α β) (k : α) : Option β := lookup d.items k

def set (d : Dict α β) (k : α) (v : β) : Dict α β := ⟨write d.items k v, nodup_write d.nodup k v⟩

def filter (d : Dict α β) (p : α × β → Bool) : Dict α β :=
  ⟨d.items.filter p, nodup_filter d.nodup p⟩

def erase (d : Dict α β) (k : α) : Dict α β := d.filter (fun e => decide (e.1 ≠ k))

@[simp] theorem get_empty (k : α) : (empty : Dict α β).get k = none := rfl

@[simp] theorem get_set_self (d : Dict α β) (k : α) (v : β) : (d.set k v).get k = some v :=
  lookup_write_self d.items k v

theorem get_set_of_ne (d : Dict α β) {k j : α} (h : j ≠ k) (v : β) :
    (d.set k v).get j = d.get j :=
  lookup_write_of_ne d.items h v

theorem get_eq_some_iff {d : Dict α β} {k : α} {v : β} : d.get k = some v ↔ (k, v) ∈ d.items :=
  ⟨mem_of_lookup, lookup_of_mem d.nodup⟩

theorem get_filter {d : Dict α β} {p : α × β → Bool} {k : α} {v : β} :
    (d.filter p).get k = some v ↔ d.get k = some v ∧ p (k, v) = true := by
  rw [get_eq_some_iff, get_eq_some_iff]
  exact List.mem_filter

@[simp] theorem get_erase_self (d : Dict α β) (k : α) : (d.erase k).get k = none := by
  apply lookup_eq_none_iff.mpr
  intro h
  obtain ⟨e, he, hk⟩ := List.mem_map.mp h
  have hne : e.1 ≠ k := by simpa using (List.mem_filter.mp he).2
  exact hne hk

theorem get_erase_of_ne (d : Dict α β) {k j : α} (h : j ≠ k) :
    (d.erase k).get j = d.get j := by
  ext v
  rw [erase, get_filter]
  simp [h]

theorem get_mapValues (f : β → γ) (d : Dict α β) (k : α) : (d.mapValues f).get k = (d.get k).map f := by
  obtain ⟨l, hl⟩ := d
  change lookup (l.map fun e => (e.1, f e.2)) k = (lookup l k).map f
  induction l with
  | nil => rfl
  | cons e l ih =>
      obtain ⟨a, b⟩ := e
      rw [List.map_cons, List.nodup_cons] at hl
      rw [List.map_cons, lookup, lookup, ih hl.2]
      split_ifs <;> rfl

theorem mapValues_set (f : β → γ) (d : Dict α β) (k : α) (v : β) :
    (d.set k v).mapValues f = (d.mapValues f).set k (f v) := by
  obtain ⟨l, hl⟩ := d
  apply Dict.ext
  change (write l k v).map (fun e => (e.1, f e.2)) = write (l.map fun e => (e.1, f e.2)) k (f v)
  induction l with
  | nil => rfl
  | cons e l ih =>
      obtain ⟨a, b⟩ := e
      rw [List.map_cons, List.nodup_cons] at hl
      rw [List.map_cons, write, write]
      split_ifs
      · rfl
      · rw [List.map_cons, ih hl.2]

omit [DecidableEq α] in
theorem mapValues_filter (f : β → γ) (d : Dict α β) (p : α × γ → Bool) :
    (d.filter (fun e => p (e.1, f e.2))).mapValues f = (d.mapValues f).filter p :=
  Dict.ext (List.filter_map (f := fun e : α × β => (e.1, f e.2))).symm

theorem mem_values_of_get {d : Dict α β} {k : α} {v : β} (h : d.get k = some v) :
    v ∈ d.values :=
  List.mem_map_of_mem (f := Prod.snd) (get_eq_some_iff.mp h)

theorem exists_get_of_mem_values {d : Dict α β} {v : β} (h : v ∈ d.values) :
    ∃ k, d.get k = some v := by
  obtain ⟨e, he, rfl⟩ := List.mem_map.mp h
  exact ⟨e.1, get_eq_some_iff.mpr he⟩

theorem mem_keys_set {d : Dict α β} {k j : α} {v : β} :
    j ∈ (d.set k v).keys ↔ j = k ∨ j ∈ d.keys := by
  rw [keys, set, keys_write]
  split_ifs with h
  · constructor
    · exact Or.inr
    · rintro (rfl | hj)
      · exact h
      · exact hj
  · rw [List.mem_append, List.mem_singleton, or_comm]
    rfl

/-- The keys keep their places; a new one comes last. -/
theorem keys_prefix_set (d : Dict α β) (k : α) (v : β) : d.keys <+: (d.set k v).keys := by
  rw [keys, keys, set, keys_write]
  split_ifs
  · exact List.prefix_refl _
  · exact List.prefix_append _ _

theorem mem_values_set_of_ne {d : Dict α β} {k j : α} {v w : β} (hj : d.get j = some w)
    (h : j ≠ k) : w ∈ (d.set k v).values :=
  mem_values_of_get ((get_set_of_ne d h v).trans hj)

theorem values_set_perm (d : Dict α β) (k : α) (v : β) :
    (d.set k v).values.Perm (v :: (d.erase k).values) :=
  (write_perm d.nodup k v).map Prod.snd

theorem values_perm_erase {d : Dict α β} {k : α} {v : β} (h : d.get k = some v) :
    d.values.Perm (v :: (d.erase k).values) :=
  (perm_without d.nodup h).map Prod.snd

theorem erase_of_get_none {d : Dict α β} {k : α} (h : d.get k = none) : d.erase k = d :=
  Dict.ext (without_of_lookup_none h)

theorem mem_values_set {d : Dict α β} {k : α} {v w : β} (h : w ∈ (d.set k v).values) :
    w = v ∨ w ∈ (d.erase k).values := by
  simpa using (values_set_perm d k v).mem_iff.mp h

theorem mem_values_erase {d : Dict α β} {k : α} {v : β} (h : v ∈ (d.erase k).values) :
    v ∈ d.values := by
  obtain ⟨e, he, rfl⟩ := List.mem_map.mp h
  exact List.mem_map_of_mem (List.mem_filter.mp he).1

theorem mem_keys_iff {d : Dict α β} {k : α} : k ∈ d.keys ↔ d.get k ≠ none :=
  (not_iff_comm.mp lookup_eq_none_iff.symm).symm

theorem values_eq_filterMap (d : Dict α β) : d.values = d.keys.filterMap d.get := by
  rw [keys, List.filterMap_map, values, ← List.filterMap_eq_map]
  apply List.filterMap_congr
  intro e he
  exact (get_eq_some_iff.mpr he).symm

theorem get_foldl_set {l : List (α × β)} (hl : (l.map Prod.fst).Nodup) (d : Dict α β) (k : α) :
    (l.foldl (fun d e => d.set e.1 e.2) d).get k = (lookup l k).or (d.get k) := by
  induction l generalizing d with
  | nil => rfl
  | cons e l ih =>
      obtain ⟨a, b⟩ := e
      rw [List.map_cons, List.nodup_cons] at hl
      rw [List.foldl_cons, ih hl.2, lookup]
      by_cases h : a = k
      · subst h
        simp [lookup_eq_none_iff.mpr hl.1]
      · rw [get_set_of_ne _ (Ne.symm h), if_neg h]

/-- Entries that cover every key of a dictionary are all that is left when they are written. -/
theorem foldl_set_perm {l : List (α × β)} (hl : (l.map Prod.fst).Nodup) {d : Dict α β}
    (hd : ∀ k ∈ d.keys, k ∈ l.map Prod.fst) :
    (l.foldl (fun d e => d.set e.1 e.2) d).items.Perm l := by
  apply (List.perm_ext_iff_of_nodup (List.Nodup.of_map _ (Dict.nodup _)) (List.Nodup.of_map _ hl)).mpr
  rintro ⟨k, v⟩
  rw [← get_eq_some_iff, get_foldl_set hl]
  cases hk : lookup l k with
  | none =>
      have hd : d.get k = none := by
        by_contra hget
        exact lookup_eq_none_iff.mp hk (hd k (mem_keys_iff.mpr hget))
      rw [hd, Option.or_none]
      refine iff_of_false (by simp) ?_
      intro hmem
      exact lookup_eq_none_iff.mp hk (List.mem_map_of_mem (f := Prod.fst) hmem)
  | some w =>
      rw [Option.some_or]
      constructor
      · intro h
        exact mem_of_lookup (hk.trans h)
      · intro h
        rw [← hk]
        exact lookup_of_mem hl h

/-- Dictionaries that agree under every key, as two readings see them, hold the same. -/
theorem values_perm_of_get {f : β → γ} {δ : Type*} {d : Dict α β} {e : Dict α δ} {g : δ → γ}
    (h : ∀ k, (d.get k).map f = (e.get k).map g) : (d.values.map f).Perm (e.values.map g) := by
  have hkeys : d.keys.Perm e.keys := by
    apply (List.perm_ext_iff_of_nodup d.nodup e.nodup).mpr
    intro k
    have hnone : d.get k = none ↔ e.get k = none := by
      rw [← Option.map_eq_none_iff (f := f), h k, Option.map_eq_none_iff]
    exact mem_keys_iff.trans ((not_congr hnone).trans mem_keys_iff.symm)
  rw [values_eq_filterMap, values_eq_filterMap, List.map_filterMap, List.map_filterMap,
    funext h]
  exact hkeys.filterMap _

theorem sum_values_set {M : Type*} [AddCommMonoid M] (f : β → M) (d : Dict α β) (k : α) (v : β) :
    ((d.set k v).values.map f).sum = f v + ((d.erase k).values.map f).sum := by
  rw [((values_set_perm d k v).map f).sum_eq, List.map_cons, List.sum_cons]

theorem sum_values_erase {M : Type*} [AddCommMonoid M] (f : β → M) {d : Dict α β} {k : α} {v : β}
    (h : d.get k = some v) :
    (d.values.map f).sum = f v + ((d.erase k).values.map f).sum := by
  rw [((values_perm_erase h).map f).sum_eq, List.map_cons, List.sum_cons]

/-- A write that raises a reading of the entry under its key raises the sum as much. -/
theorem sum_values_set_add {M : Type*} [AddCommMonoid M] (f : β → M) (d : Dict α β) {k : α} {v : β}
    {m : M} (h : f v = ((d.get k).map f).getD 0 + m) :
    ((d.set k v).values.map f).sum = (d.values.map f).sum + m := by
  rw [sum_values_set, h]
  cases hk : d.get k with
  | none =>
      rw [erase_of_get_none hk]
      simp [add_comm]
  | some w =>
      rw [sum_values_erase f hk, Option.map_some, Option.getD_some]
      abel

/-- Each key as often as a reading of its value says. -/
def tally (n : β → ℕ) (d : Dict α β) : Multiset α :=
  (d.items.map (fun e => Multiset.replicate (n e.2) e.1)).sum

omit [DecidableEq α] in
@[simp] theorem tally_empty (n : β → ℕ) : tally n (empty : Dict α β) = 0 := rfl

/-- A write that raises the reading of one key by one adds that key to the tally. -/
theorem tally_set_succ (n : β → ℕ) (d : Dict α β) (k : α) (v : β)
    (h : n v = ((d.get k).map n).getD 0 + 1) : tally n (d.set k v) = tally n d + {k} := by
  have hset : tally n (d.set k v) = Multiset.replicate (n v) k + tally n (d.erase k) :=
    ((write_perm d.nodup k v).map _).sum_eq
  rw [hset, h]
  cases hk : d.get k with
  | none =>
      rw [erase_of_get_none hk]
      simp [add_comm]
  | some w =>
      have herase : tally n d = Multiset.replicate (n w) k + tally n (d.erase k) :=
        ((perm_without d.nodup hk).map _).sum_eq
      rw [herase]
      simp only [Option.map_some, Option.getD_some, Multiset.replicate_succ, ← Multiset.singleton_add]
      abel

omit [DecidableEq α] in
theorem card_tally (n : β → ℕ) (d : Dict α β) : (tally n d).card = (d.values.map n).sum := by
  obtain ⟨l, hl⟩ := d
  change ((l.map (fun e => Multiset.replicate (n e.2) e.1)).sum).card = ((l.map Prod.snd).map n).sum
  clear hl
  induction l with
  | nil => rfl
  | cons e l ih => simp [ih]

theorem count_tally (n : β → ℕ) (d : Dict α β) (k : α) :
    (tally n d).count k = ((d.get k).map n).getD 0 := by
  obtain ⟨l, hl⟩ := d
  change ((l.map (fun e => Multiset.replicate (n e.2) e.1)).sum).count k = ((lookup l k).map n).getD 0
  induction l with
  | nil => rfl
  | cons e l ih =>
      obtain ⟨a, b⟩ := e
      rw [List.map_cons, List.nodup_cons] at hl
      rw [List.map_cons, List.sum_cons, Multiset.count_add, ih hl.2, Multiset.count_replicate, lookup]
      by_cases h : a = k
      · subst h
        rw [lookup_eq_none_iff.mpr hl.1]
        simp
      · simp [h]

def count (d : Dict α ℕ) (k : α) : ℕ := (d.get k).getD 0

/-- `d[k] = d.get(k, 0) + 1`. -/
def bump (d : Dict α ℕ) (k : α) : Dict α ℕ := d.set k (d.count k + 1)

theorem tally_bump (d : Dict α ℕ) (k : α) : tally id (d.bump k) = tally id d + {k} := by
  apply tally_set_succ id d k _
  simp [count]

theorem sum_bump (d : Dict α ℕ) (k : α) : (d.bump k).values.sum = d.values.sum + 1 := by
  have h := congrArg Multiset.card (tally_bump d k)
  simpa [card_tally] using h

theorem count_bump (d : Dict α ℕ) (k j : α) :
    (d.bump k).count j = d.count j + if j = k then 1 else 0 := by
  by_cases h : j = k
  · simp [bump, count, h]
  · simp [bump, count, get_set_of_ne _ h, h]

theorem count_foldl_bump (l : List α) (d : Dict α ℕ) (k : α) :
    (l.foldl bump d).count k = d.count k + l.count k := by
  induction l generalizing d with
  | nil => rfl
  | cons a l ih =>
      rw [List.foldl_cons, ih, count_bump]
      by_cases h : k = a
      · rw [h, if_pos rfl, List.count_cons_self]
        omega
      · rw [if_neg h, List.count_cons_of_ne (Ne.symm h)]
        omega

end Dict

instance [DecidableEq α] [DecidableEq β] : DecidableEq (Dict α β) := fun d e =>
  decidable_of_iff (d.items = e.items) ⟨Dict.ext, fun h => congrArg Dict.items h⟩

end OrderedDict
