import InsteonRf.Lib.OrderedDict
import Mathlib.Algebra.Order.Group.Basic

/-!
# Cooldowns

Of events that come with a key and a time, one is let through when none with its key was
within the cooldown before it. The rest are counted, and do not extend the cooldown.
-/
namespace Cooldown
open OrderedDict

/-- When each key was last let through, and how often it was held back. -/
structure Table (κ τ : Type*) where
  last : Dict κ τ
  suppressed : Dict κ ℕ

variable {α κ τ : Type*} [DecidableEq κ] [AddCommGroup τ] [LinearOrder τ]

def Table.empty : Table κ τ := ⟨Dict.empty, Dict.empty⟩

def ask (cooldown : τ) (s : Table κ τ) (k : κ) (now : τ) : Table κ τ × Bool :=
  match s.last.get k with
  | some t =>
      if now - t < cooldown then ({ s with suppressed := s.suppressed.bump k }, false)
      else ({ s with last := s.last.set k now }, true)
  | none => ({ s with last := s.last.set k now }, true)

theorem ask_cases (cooldown : τ) (s : Table κ τ) (k : κ) (now : τ) :
    (ask cooldown s k now = ({ s with last := s.last.set k now }, true) ∧
      ∀ t, s.last.get k = some t → cooldown ≤ now - t) ∨
    ∃ t, s.last.get k = some t ∧ now - t < cooldown ∧
      ask cooldown s k now = ({ s with suppressed := s.suppressed.bump k }, false) := by
  rw [ask]
  cases h : s.last.get k with
  | none => exact .inl ⟨rfl, fun t ht => absurd ht (by simp)⟩
  | some t =>
      by_cases hheld : now - t < cooldown
      · exact .inr ⟨t, rfl, hheld, if_pos hheld⟩
      · refine .inl ⟨if_neg hheld, ?_⟩
        intro u hu
        rw [← Option.some.inj hu]
        exact not_lt.mp hheld

variable (cooldown : τ) (key : α → κ) (time : α → τ)

def passed : Table κ τ → List α → Table κ τ × List α
  | s, [] => (s, [])
  | s, a :: l =>
      let r := ask cooldown s (key a) (time a)
      let rest := passed r.1 l
      (rest.1, if r.2 then a :: rest.2 else rest.2)

theorem passed_append (s : Table κ τ) (l m : List α) :
    passed cooldown key time s (l ++ m) =
      ((passed cooldown key time (passed cooldown key time s l).1 m).1,
        (passed cooldown key time s l).2 ++
          (passed cooldown key time (passed cooldown key time s l).1 m).2) := by
  induction l generalizing s with
  | nil => rfl
  | cons a l ih =>
      simp only [List.cons_append, passed, ih]
      split_ifs <;> rfl

theorem length_passed (s : Table κ τ) (l : List α) :
    (passed cooldown key time s l).2.length +
        (passed cooldown key time s l).1.suppressed.values.sum =
      s.suppressed.values.sum + l.length := by
  induction l generalizing s with
  | nil => simp [passed]
  | cons a l ih =>
      have hrest := ih (ask cooldown s (key a) (time a)).1
      rw [passed, List.length_cons]
      rcases ask_cases cooldown s (key a) (time a) with ⟨hask, -⟩ | ⟨t, -, -, hask⟩
      · simp only [hask, if_true, List.length_cons] at hrest ⊢
        omega
      · simp only [hask, if_false, Bool.false_eq_true, Dict.sum_bump] at hrest ⊢
        omega

variable {cooldown key time}

/-- The table is the record of what was let through up to `now`. -/
structure Logged (cooldown : τ) (key : α → κ) (time : α → τ) (through : List α) (s : Table κ τ)
    (now : τ) : Prop where
  recent : ∀ k t, s.last.get k = some t → t ≤ now ∧ ∃ a ∈ through, key a = k ∧ time a = t
  latest : ∀ a ∈ through, ∃ t, s.last.get (key a) = some t ∧ time a ≤ t
  spaced : through.Pairwise (fun a b => key a = key b → cooldown ≤ time b - time a)

theorem logged_empty (now : τ) :
    Logged cooldown key time [] (Table.empty : Table κ τ) now := by
  refine ⟨?_, ?_, List.Pairwise.nil⟩
  · intro k t h
    cases h
  · intro a h
    cases h

theorem Logged.later {through : List α} {s : Table κ τ} {now later : τ}
    (h : Logged cooldown key time through s now) (hle : now ≤ later) :
    Logged cooldown key time through s later :=
  ⟨fun k t ht => ⟨(h.recent k t ht).1.trans hle, (h.recent k t ht).2⟩, h.latest, h.spaced⟩

/-- An event that is held back came within the cooldown of one with its key. -/
theorem Logged.covered {through : List α} {s : Table κ τ} {now : τ}
    (h : Logged cooldown key time through s now) (a : α) :
    (ask cooldown s (key a) (time a)).2 = true ∨
      ∃ b ∈ through, key b = key a ∧ time b ≤ now ∧ time a - time b < cooldown := by
  rcases ask_cases cooldown s (key a) (time a) with ⟨hask, -⟩ | ⟨t, ht, hclose, -⟩
  · exact .inl (by rw [hask])
  · obtain ⟨hle, b, hb, hkey, rfl⟩ := h.recent _ t ht
    exact .inr ⟨b, hb, hkey, hle, hclose⟩

variable [IsOrderedAddMonoid τ]

theorem Logged.pass {through : List α} {s : Table κ τ} {now : τ}
    (h : Logged cooldown key time through s now) {a : α} (hnow : now ≤ time a)
    (hfree : ∀ t, s.last.get (key a) = some t → cooldown ≤ time a - t) :
    Logged cooldown key time (through ++ [a]) { s with last := s.last.set (key a) (time a) }
      (time a) := by
  refine ⟨?_, ?_, ?_⟩
  · intro k t ht
    by_cases hk : k = key a
    · subst hk
      rw [Dict.get_set_self] at ht
      obtain rfl := Option.some.inj ht
      exact ⟨le_rfl, a, by simp, rfl, rfl⟩
    · rw [Dict.get_set_of_ne _ hk] at ht
      obtain ⟨hle, b, hb, hkey, htime⟩ := h.recent k t ht
      exact ⟨hle.trans hnow, b, List.mem_append_left _ hb, hkey, htime⟩
  · intro b hb
    by_cases hk : key b = key a
    · refine ⟨time a, by rw [hk]; exact Dict.get_set_self _ _ _, ?_⟩
      rcases List.mem_append.mp hb with hold | hself
      · obtain ⟨t, ht, hle⟩ := h.latest b hold
        exact hle.trans ((h.recent _ t ht).1.trans hnow)
      · rw [List.mem_singleton.mp hself]
    · rcases List.mem_append.mp hb with hold | hself
      · obtain ⟨t, ht, hle⟩ := h.latest b hold
        exact ⟨t, (Dict.get_set_of_ne _ hk _).trans ht, hle⟩
      · exact absurd (congrArg key (List.mem_singleton.mp hself)) hk
  · refine List.pairwise_append.mpr ⟨h.spaced, List.pairwise_singleton _ a, ?_⟩
    intro b hb c hc hkey
    rw [List.mem_singleton.mp hc] at hkey ⊢
    -- the last one let through is the closest
    obtain ⟨t, ht, hle⟩ := h.latest b hb
    rw [hkey] at ht
    exact (hfree t ht).trans (sub_le_sub_left hle (time a))

/-- In the order of their times, events are let through at least a cooldown apart. -/
theorem Logged.passed {through : List α} {s : Table κ τ} {now : τ}
    (h : Logged cooldown key time through s now) {l : List α} (hnow : ∀ a ∈ l, now ≤ time a)
    (hordered : l.Pairwise (fun a b => time a ≤ time b)) {later : τ} (hlater : now ≤ later)
    (hlast : ∀ a ∈ l, time a ≤ later) :
    Logged cooldown key time (through ++ (passed cooldown key time s l).2)
      (passed cooldown key time s l).1 later := by
  induction l generalizing through s now with
  | nil => simpa [Cooldown.passed] using h.later hlater
  | cons a l ih =>
      obtain ⟨hfirst, hrest⟩ := List.pairwise_cons.mp hordered
      obtain ⟨ha, hl⟩ := List.forall_mem_cons.mp hlast
      have hstart : now ≤ time a := hnow a List.mem_cons_self
      rw [Cooldown.passed]
      rcases ask_cases cooldown s (key a) (time a) with ⟨hask, hfree⟩ | ⟨t, -, -, hask⟩
      · have hgoal := ih (h.pass hstart hfree) hfirst hrest ha hl
        simpa [hask] using hgoal
      · have hheld : Logged cooldown key time through
            { s with suppressed := s.suppressed.bump (key a) } (time a) :=
          ⟨(h.later hstart).recent, h.latest, h.spaced⟩
        have hgoal := ih hheld hfirst hrest ha hl
        simpa [hask] using hgoal

end Cooldown
