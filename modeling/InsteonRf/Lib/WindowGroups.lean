import InsteonRf.Lib.Machine
import InsteonRf.Lib.OrderedDict
import Mathlib.Data.List.Chain

/-!
# Groups of a stream that close when nothing joins them

Each element joins the open group of its key. Open groups that are late are handed over
when they are asked for, and all of them at the end. What is late is a parameter.
-/
namespace WindowGroups
open OrderedDict

inductive Op (α τ : Type*) where
  | add (t : τ) (a : α)
  | pop (now : τ)
  | flush

variable {α κ τ : Type*}

def Op.added : Op α τ → List α
  | .add _ a => [a]
  | .pop _ => []
  | .flush => []

def groups (d : Dict κ (τ × List α)) : List (List α) := d.values.map Prod.snd

variable [DecidableEq κ] (key : α → κ) (late : τ → τ → Bool)

/-- The open group of a key, empty when there is none. -/
def current (d : Dict κ (τ × List α)) (k : κ) : List α := ((d.get k).map Prod.snd).getD []

def add (d : Dict κ (τ × List α)) (t : τ) (a : α) : Dict κ (τ × List α) :=
  d.set (key a) (t, current d (key a) ++ [a])

def step (d : Dict κ (τ × List α)) : Op α τ → Dict κ (τ × List α) × List (List α)
  | .add t a => (add key d t a, [])
  | .pop now =>
      (d.filter (fun e => !late e.2.1 now),
        (d.items.filter (fun e => late e.2.1 now)).map (fun e => e.2.2))
  | .flush => (Dict.empty, groups d)

section Groups
variable {key}

theorem groups_add (d : Dict κ (τ × List α)) (t : τ) (a : α) :
    (groups (add key d t a)).Perm ((current d (key a) ++ [a]) :: groups (d.erase (key a))) :=
  (Dict.values_set_perm d (key a) _).map Prod.snd

theorem groups_erase {d : Dict κ (τ × List α)} {k : κ} {e : τ × List α} (h : d.get k = some e) :
    (groups d).Perm (current d k :: groups (d.erase k)) := by
  have hcurrent : current d k = e.2 := by rw [current, h, Option.map_some, Option.getD_some]
  rw [hcurrent]
  exact (Dict.values_perm_erase h).map Prod.snd

theorem flatten_add (d : Dict κ (τ × List α)) (t : τ) (a : α) :
    (groups (add key d t a)).flatten.Perm ((groups d).flatten ++ [a]) := by
  refine (groups_add d t a).flatten.trans ?_
  cases h : d.get (key a) with
  | none =>
      rw [Dict.erase_of_get_none h, current, h]
      exact List.perm_append_comm
  | some e =>
      refine List.Perm.trans ?_ ((groups_erase h).flatten.append_right [a]).symm
      rw [List.flatten_cons, List.flatten_cons, List.append_assoc, List.append_assoc]
      exact List.perm_append_comm.append_left _

/-- Handing groups over loses none and makes none. -/
theorem groups_step {d : Dict κ (τ × List α)} {op : Op α τ} (h : op.added = []) :
    ((step key late d op).2 ++ groups (step key late d op).1).Perm (groups d) := by
  cases op with
  | add t a => cases h
  | pop now =>
      have hsplit := (List.filter_append_perm (fun e : κ × τ × List α => late e.2.1 now) d.items).map
        (fun e => e.2.2)
      rw [List.map_append] at hsplit
      simpa only [step, groups, Dict.values, Dict.filter, List.map_map, Function.comp_def] using hsplit
  | flush => simp [step, groups]

end Groups

/-- What was added, and the groups that hold it: those handed over and those still open. -/
structure Accounted (added : List α) (out : List (List α)) (d : Dict κ (τ × List α)) : Prop where
  perm : (out ++ groups d).flatten.Perm added
  inOrder : ∀ g ∈ out ++ groups d, g.Sublist added
  nonempty : ∀ g ∈ out ++ groups d, g ≠ []
  alike : ∀ g ∈ out ++ groups d, ∀ a ∈ g, ∀ b ∈ g, key a = key b
  keyed : ∀ k e, d.get k = some e → ∀ a ∈ e.2, key a = k

section Accounting
variable {key} {late}

theorem accounted_empty : Accounted key [] [] (Dict.empty : Dict κ (τ × List α)) := by
  refine ⟨List.Perm.refl _, ?_, ?_, ?_, ?_⟩
  · intro g hg
    cases hg
  · intro g hg
    cases hg
  · intro g hg
    cases hg
  · intro k e he
    cases he

theorem mem_groups_of_get {d : Dict κ (τ × List α)} {k : κ} {e : τ × List α} (h : d.get k = some e) :
    e.2 ∈ groups d :=
  List.mem_map_of_mem (Dict.mem_values_of_get h)

theorem Accounted.current_key {added : List α} {out : List (List α)} {d : Dict κ (τ × List α)}
    (h : Accounted key added out d) (k : κ) : ∀ a ∈ current d k, key a = k := by
  intro a ha
  rw [current] at ha
  cases hk : d.get k with
  | none => simp [hk] at ha
  | some e =>
      rw [hk] at ha
      exact h.keyed k e hk a ha

theorem current_sublist {added : List α} {out : List (List α)} {d : Dict κ (τ × List α)}
    (h : Accounted key added out d) (k : κ) : (current d k).Sublist added := by
  rw [current]
  cases hk : d.get k with
  | none => exact List.nil_sublist added
  | some e => exact h.inOrder _ (List.mem_append_right _ (mem_groups_of_get hk))

theorem mem_groups_erase {d : Dict κ (τ × List α)} {k : κ} {g : List α}
    (h : g ∈ groups (d.erase k)) : g ∈ groups d := by
  obtain ⟨e, he, rfl⟩ := List.mem_map.mp h
  exact List.mem_map_of_mem (Dict.mem_values_erase he)

theorem accounted_add {added : List α} {out : List (List α)} {d : Dict κ (τ × List α)}
    (h : Accounted key added out d) (t : τ) (a : α) :
    Accounted key (added ++ [a]) out (add key d t a) := by
  have hmem : ∀ g ∈ out ++ groups (add key d t a),
      g = current d (key a) ++ [a] ∨ g ∈ out ++ groups d := by
    intro g hg
    rcases List.mem_append.mp hg with hout | hopen
    · exact .inr (List.mem_append_left _ hout)
    · rcases List.mem_cons.mp ((groups_add d t a).mem_iff.mp hopen) with hnew | hold
      · exact .inl hnew
      · exact .inr (List.mem_append_right _ (mem_groups_erase hold))
  have hkey : ∀ b ∈ current d (key a) ++ [a], key b = key a := by
    intro b hb
    rcases List.mem_append.mp hb with hcurrent | hself
    · exact h.current_key (key a) b hcurrent
    · rw [List.mem_singleton.mp hself]
  refine ⟨?_, ?_, ?_, ?_, ?_⟩
  · rw [List.flatten_append]
    refine ((flatten_add d t a).append_left _).trans ?_
    rw [← List.append_assoc, ← List.flatten_append]
    exact h.perm.append_right [a]
  · intro g hg
    rcases hmem g hg with rfl | hold
    · exact (current_sublist h (key a)).append (List.Sublist.refl _)
    · exact (h.inOrder g hold).trans (List.sublist_append_left _ _)
  · intro g hg
    rcases hmem g hg with rfl | hold
    · simp
    · exact h.nonempty g hold
  · intro g hg
    rcases hmem g hg with rfl | hold
    · intro b hb c hc
      rw [hkey b hb, hkey c hc]
    · exact h.alike g hold
  · intro k e he
    by_cases hk : k = key a
    · subst hk
      rw [add, Dict.get_set_self] at he
      obtain rfl := Option.some.inj he
      exact hkey
    · rw [add, Dict.get_set_of_ne _ hk] at he
      exact h.keyed k e he

theorem accounted_step {added : List α} {out : List (List α)} {d : Dict κ (τ × List α)}
    (h : Accounted key added out d) (op : Op α τ) :
    Accounted key (added ++ op.added) (out ++ (step key late d op).2) (step key late d op).1 := by
  have hover : op.added = [] →
      (∀ k e, (step key late d op).1.get k = some e → ∀ a ∈ e.2, key a = k) →
      Accounted key (added ++ op.added) (out ++ (step key late d op).2) (step key late d op).1 := by
    intro hnone hkeyed
    have hperm := (@groups_step _ _ _ _ key late d op hnone).append_left out
    rw [← List.append_assoc] at hperm
    rw [hnone, List.append_nil]
    exact ⟨hperm.flatten.trans h.perm, fun g hg => h.inOrder g (hperm.mem_iff.mp hg),
      fun g hg => h.nonempty g (hperm.mem_iff.mp hg),
      fun g hg => h.alike g (hperm.mem_iff.mp hg), hkeyed⟩
  cases op with
  | add t a =>
      rw [step, List.append_nil]
      exact accounted_add h t a
  | pop now =>
      apply hover rfl
      intro k e he
      exact h.keyed k e (Dict.get_filter.mp he).1
  | flush =>
      apply hover rfl
      intro k e he
      cases he

/-- Whatever the order of additions and hand-overs, each element is in exactly one group. -/
theorem accounted_run {added : List α} {out : List (List α)} {d : Dict κ (τ × List α)}
    (h : Accounted key added out d) (ops : List (Op α τ)) :
    Accounted key (added ++ ops.flatMap Op.added)
      (out ++ (Machine.run (step key late) d ops).2.flatten)
      (Machine.run (step key late) d ops).1 := by
  induction ops generalizing added out d with
  | nil => simpa using h
  | cons op ops ih =>
      rw [List.flatMap_cons, ← List.append_assoc, Machine.run_cons, List.flatten_cons,
        ← List.append_assoc]
      exact ih (accounted_step h op)

end Accounting

section Stream
variable (time popAt : α → τ)

def feed (a : α) : List (Op α τ) := [.add (time a) a, .pop (popAt a)]

/-- The open groups after a stream, and the groups handed over on the way. -/
def stream (us : List α) : Dict κ (τ × List α) × List (List α) :=
  let r := Machine.run (step key late) Dict.empty (us.flatMap (feed time popAt))
  (r.1, r.2.flatten)

def all (us : List α) : List (List α) :=
  (stream key late time popAt us).2 ++ groups (stream key late time popAt us).1

variable {key late time popAt}

theorem stream_concat (us : List α) (b : α) :
    stream key late time popAt (us ++ [b]) =
      let d := add key (stream key late time popAt us).1 (time b) b
      ((step key late d (.pop (popAt b))).1,
        (stream key late time popAt us).2 ++ (step key late d (.pop (popAt b))).2) := by
  simp [stream, feed, Machine.run_append, step]

/-- A list with one element more is taken apart at that element or before it. -/
theorem concat_eq_split {us u v : List α} {a b : α} :
    us ++ [b] = u ++ a :: v ↔
      (v = [] ∧ u = us ∧ a = b) ∨ ∃ w, v = w ++ [b] ∧ us = u ++ a :: w := by
  constructor
  · intro h
    rcases List.eq_nil_or_concat v with rfl | ⟨w, c, rfl⟩
    · obtain ⟨hu, hb⟩ := List.append_inj' h rfl
      exact .inl ⟨rfl, hu.symm, (List.singleton_inj.mp hb).symm⟩
    · rw [List.concat_eq_append, ← List.cons_append, ← List.append_assoc] at h
      obtain ⟨hu, hb⟩ := List.append_inj' h rfl
      obtain rfl := List.singleton_inj.mp hb
      exact .inr ⟨w, List.concat_eq_append, hu⟩
  · rintro (⟨rfl, rfl, rfl⟩ | ⟨w, rfl, rfl⟩)
    · rfl
    · simp

/-- An open group carries the time of its last element, which is the last one with that key and
was not late at any hand-over since. -/
theorem get_stream {us : List α} {k : κ} {t : τ} {g : List α} :
    (stream key late time popAt us).1.get k = some (t, g) →
      ∃ u a v, us = u ++ a :: v ∧ g.getLast? = some a ∧ t = time a ∧ key a = k ∧
        (∀ c ∈ v, key c ≠ k) ∧ ∀ c ∈ a :: v, late t (popAt c) = false := by
  induction us using List.reverseRecOn generalizing t g with
  | nil =>
      intro h
      cases h
  | append_singleton us b ih =>
      intro h
      rw [stream_concat] at h
      obtain ⟨hget, hlate⟩ := Dict.get_filter.mp h
      have hkept : late t (popAt b) = false := by simpa using hlate
      by_cases hk : k = key b
      · subst hk
        rw [add, Dict.get_set_self] at hget
        obtain ⟨rfl, rfl⟩ := Prod.mk.inj (Option.some.inj hget)
        exact ⟨us, b, [], rfl, by simp, rfl, rfl, by simp, by simpa using hkept⟩
      · rw [add, Dict.get_set_of_ne _ hk] at hget
        obtain ⟨u, a, v, rfl, hlast, ht, ha, hother, hon⟩ := ih hget
        refine ⟨u, a, v ++ [b], by simp, hlast, ht, ha, ?_, ?_⟩
        · intro c hc
          rcases List.mem_append.mp hc with hv | hb
          · exact hother c hv
          · rw [List.mem_singleton.mp hb]
            exact Ne.symm hk
        · intro c hc
          rw [← List.cons_append] at hc
          rcases List.mem_append.mp hc with hv | hb
          · exact hon c hv
          · rw [List.mem_singleton.mp hb]
            exact hkept

theorem get_stream_of_split {u v : List α} {a : α} (hv : ∀ c ∈ v, key c ≠ key a)
    (hon : ∀ c ∈ a :: v, late (time a) (popAt c) = false) :
    ∃ g, (stream key late time popAt (u ++ a :: v)).1.get (key a) = some (time a, g) ∧
      g.getLast? = some a := by
  induction v using List.reverseRecOn with
  | nil =>
      rw [stream_concat]
      refine ⟨_, Dict.get_filter.mpr ⟨Dict.get_set_self _ _ _, ?_⟩, by simp⟩
      simpa using hon a List.mem_cons_self
  | append_singleton v b ih =>
      obtain ⟨g, hget, hlast⟩ := ih (fun c hc => hv c (List.mem_append_left _ hc)) (fun c hc => by
        apply hon c
        rw [← List.cons_append]
        exact List.mem_append_left _ hc)
      rw [← List.cons_append, ← List.append_assoc, stream_concat]
      have hne : key a ≠ key b := fun h => hv b (by simp) h.symm
      refine ⟨g, Dict.get_filter.mpr ⟨(Dict.get_set_of_ne _ hne _).trans hget, ?_⟩, hlast⟩
      simpa using hon b (by simp)

theorem all_concat (us : List α) (b : α) :
    (all key late time popAt (us ++ [b])).Perm
      ((current (stream key late time popAt us).1 (key b) ++ [b]) ::
        ((stream key late time popAt us).2 ++ groups ((stream key late time popAt us).1.erase (key b)))) := by
  rw [all, stream_concat, List.append_assoc]
  refine ((@groups_step _ _ _ _ key late _ (.pop (popAt b)) rfl).append_left _).trans ?_
  exact ((groups_add _ _ _).append_left _).trans List.perm_middle

theorem forall_all_iff {P : List α → Prop} (hnil : P []) (us : List α) (k : κ) :
    (∀ g ∈ all key late time popAt us, P g) ↔
      P (current (stream key late time popAt us).1 k) ∧
        ∀ g ∈ (stream key late time popAt us).2 ++
          groups ((stream key late time popAt us).1.erase k), P g := by
  cases hk : (stream key late time popAt us).1.get k with
  | none =>
      have hcurrent : current (stream key late time popAt us).1 k = [] := by
        rw [current, hk]
        rfl
      rw [Dict.erase_of_get_none hk, hcurrent]
      exact (and_iff_right hnil).symm
  | some e =>
      have hperm := ((groups_erase hk).append_left (stream key late time popAt us).2).trans
        List.perm_middle
      rw [← List.forall_mem_cons]
      exact forall_congr' fun g => imp_congr_left hperm.mem_iff

/-- The element that the next one joins, if any, is the last of its key. -/
theorem joins_iff (R : α → α → Prop) (us : List α) (b : α) :
    (∀ a ∈ (current (stream key late time popAt us).1 (key b)).getLast?, R a b) ↔
      ∀ u a v, us = u ++ a :: v → key a = key b → (∀ c ∈ v, key c ≠ key b) →
        R a b ∨ ∃ c ∈ a :: v, late (time a) (popAt c) = true := by
  constructor
  · rintro h u a v rfl ha hv
    by_cases hlate : ∃ c ∈ a :: v, late (time a) (popAt c) = true
    · exact .inr hlate
    · have hon : ∀ c ∈ a :: v, late (time a) (popAt c) = false := by
        intro c hc
        exact Bool.eq_false_iff.mpr fun hc' => hlate ⟨c, hc, hc'⟩
      rw [← ha] at hv h
      obtain ⟨g, hget, hlast⟩ := get_stream_of_split (u := u) hv hon
      refine .inl (h a ?_)
      rw [current, hget]
      exact hlast
  · intro h a ha
    rw [current] at ha
    cases hk : (stream key late time popAt us).1.get (key b) with
    | none => simp [hk] at ha
    | some e =>
        obtain ⟨u, c, v, hus, hlast, ht, hc, hv, hon⟩ := get_stream hk
        rw [hk, Option.map_some, Option.getD_some, hlast, Option.mem_some_iff] at ha
        subst ha
        rcases h u c v hus hc hv with hR | ⟨x, hx, hlate⟩
        · exact hR
        · rw [← ht, hon x hx] at hlate
          cases hlate

/-- Neighbours in every group are related exactly when any two successive elements of a key
are, or the earlier was late at some hand-over before the later came. -/
theorem isChain_all_iff (R : α → α → Prop) (us : List α) :
    (∀ g ∈ all key late time popAt us, g.IsChain R) ↔
      ∀ u a v b x, us = u ++ a :: (v ++ b :: x) → key a = key b → (∀ c ∈ v, key c ≠ key b) →
        R a b ∨ ∃ c ∈ a :: v, late (time a) (popAt c) = true := by
  induction us using List.reverseRecOn with
  | nil => simp [all, stream, groups]
  | append_singleton us b ih =>
      have hgroups : (∀ g ∈ all key late time popAt (us ++ [b]), g.IsChain R) ↔
          (∀ g ∈ all key late time popAt us, g.IsChain R) ∧
            ∀ a ∈ (current (stream key late time popAt us).1 (key b)).getLast?, R a b := by
        rw [forall_congr' fun g => imp_congr_left (all_concat us b).mem_iff, List.forall_mem_cons,
          List.isChain_append, forall_all_iff List.isChain_nil us (key b)]
        constructor
        · rintro ⟨⟨hcurrent, -, hlast⟩, hrest⟩
          exact ⟨⟨hcurrent, hrest⟩, fun a ha => hlast a ha b rfl⟩
        · rintro ⟨⟨hcurrent, hrest⟩, hlast⟩
          refine ⟨⟨hcurrent, List.isChain_singleton b, ?_⟩, hrest⟩
          rintro a ha c hc
          obtain rfl := Option.mem_some_iff.mp hc
          exact hlast a ha
      rw [hgroups, ih, joins_iff]
      constructor
      · rintro ⟨hbefore, hlast⟩ u a v c x hus hkey hv
        rw [← List.cons_append, ← List.append_assoc, concat_eq_split] at hus
        rcases hus with ⟨-, hus, rfl⟩ | ⟨w, -, hus⟩
        · exact hlast u a v hus.symm hkey hv
        · exact hbefore u a v c w (by rw [hus]; simp) hkey hv
      · intro h
        constructor
        · intro u a v c x hus
          exact h u a v c (x ++ [b]) (by rw [hus]; simp)
        · intro u a v hus
          exact h u a v b [] (by rw [hus]; simp)

end Stream

end WindowGroups
