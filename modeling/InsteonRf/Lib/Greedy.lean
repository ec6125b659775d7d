import Mathlib.Data.List.Sort
import Mathlib.Tactic

/-!
# Greedy choices along a list

`keep` takes each candidate that is near none taken before it. `scan` takes each candidate that
starts when the last one taken has finished.
-/
namespace Greedy

variable {α κ : Type*}

section Keep

variable (near : α → α → Prop) [DecidableRel near]

def keep (taken : List α) : List α → List α
  | [] => []
  | a :: l => if ∃ b ∈ taken, near a b then keep taken l else a :: keep (taken ++ [a]) l

variable {near} {taken l : List α}

theorem keep_sublist : (keep near taken l).Sublist l := by
  induction l generalizing taken with
  | nil => exact List.Sublist.slnil
  | cons a l ih =>
      unfold keep
      split_ifs
      · exact ih.cons a
      · exact ih.cons_cons a

theorem keep_apart_taken {a : α} (h : a ∈ keep near taken l) : ∀ b ∈ taken, ¬ near a b := by
  induction l generalizing taken with
  | nil => cases h
  | cons c l ih =>
      unfold keep at h
      split_ifs at h with hnear
      · exact ih h
      · rcases List.mem_cons.mp h with rfl | hrest
        · exact fun b hb hab => hnear ⟨b, hb, hab⟩
        · exact fun b hb => ih hrest b (List.mem_append_left _ hb)

/-- None taken is near one taken before it. -/
theorem keep_apart : (keep near taken l).Pairwise (fun a b => ¬ near b a) := by
  induction l generalizing taken with
  | nil => exact List.Pairwise.nil
  | cons a l ih =>
      unfold keep
      split_ifs
      · exact ih
      · exact List.pairwise_cons.mpr
          ⟨fun b hb => keep_apart_taken hb a (by simp), ih⟩

/-- A candidate that is not taken is near one taken before it. -/
theorem keep_covers (near : α → α → Prop) [DecidableRel near] (taken : List α)
    {r : α → α → Prop} (hl : l.Pairwise r) {a : α} (ha : a ∈ l) :
    a ∈ keep near taken l ∨ ∃ b, near a b ∧ (b ∈ taken ∨ b ∈ keep near taken l ∧ r b a) := by
  induction l generalizing taken with
  | nil => cases ha
  | cons c l ih =>
      obtain ⟨hc, hl⟩ := List.pairwise_cons.mp hl
      unfold keep
      split_ifs with hnear
      · rcases List.mem_cons.mp ha with rfl | ha
        · obtain ⟨b, hb, hab⟩ := hnear
          exact Or.inr ⟨b, hab, Or.inl hb⟩
        · exact ih taken hl ha
      · rcases List.mem_cons.mp ha with rfl | ha
        · exact Or.inl (by simp)
        · rcases ih (taken ++ [c]) hl ha with hkept | ⟨b, hab, hb | ⟨hb, hr⟩⟩
          · exact Or.inl (List.mem_cons_of_mem _ hkept)
          · rcases List.mem_append.mp hb with hb | hb
            · exact Or.inr ⟨b, hab, Or.inl hb⟩
            · have hbc : b = c := List.mem_singleton.mp hb
              rw [hbc] at hab
              exact Or.inr ⟨c, hab, Or.inr ⟨by simp, hc a ha⟩⟩
          · exact Or.inr ⟨b, hab, Or.inr ⟨List.mem_cons_of_mem _ hb, hr⟩⟩

end Keep

section Scan

variable [LinearOrder κ] (start finish : α → κ)

def scan (busy : κ) : List α → List α
  | [] => []
  | a :: l => if start a < busy then scan busy l else a :: scan (finish a) l

variable {start finish} {busy : κ} {l : List α}

theorem scan_sublist : (scan start finish busy l).Sublist l := by
  induction l generalizing busy with
  | nil => exact List.Sublist.slnil
  | cons a l ih =>
      unfold scan
      split_ifs
      · exact ih.cons a
      · exact ih.cons_cons a

theorem scan_after (hl : l.Pairwise (fun a b => start a ≤ start b)) {a : α}
    (h : a ∈ scan start finish busy l) : busy ≤ start a := by
  induction l with
  | nil => cases h
  | cons c l ih =>
      obtain ⟨hc, hl⟩ := List.pairwise_cons.mp hl
      unfold scan at h
      split_ifs at h with hbusy
      · exact ih hl h
      · rcases List.mem_cons.mp h with rfl | hrest
        · exact not_lt.mp hbusy
        · exact (not_lt.mp hbusy).trans (hc a (scan_sublist.subset hrest))

/-- Of candidates in the order of their starts, those taken do not overlap. -/
theorem scan_disjoint (hl : l.Pairwise (fun a b => start a ≤ start b)) :
    (scan start finish busy l).Pairwise (fun a b => finish a ≤ start b) := by
  induction l generalizing busy with
  | nil => exact List.Pairwise.nil
  | cons a l ih =>
      obtain ⟨-, hl⟩ := List.pairwise_cons.mp hl
      unfold scan
      split_ifs
      · exact ih hl
      · exact List.pairwise_cons.mpr ⟨fun b hb => scan_after hl hb, ih hl⟩

theorem sublist_of_starts {real : List α} (hl : l.Pairwise (fun a b => start a < start b))
    (hreal : real.Pairwise (fun a b => start a < start b)) (hmem : ∀ a ∈ real, a ∈ l) :
    real.Sublist l := by
  have hanti : Std.Antisymm fun a b => start a < start b :=
    ⟨fun _ _ hab hba => absurd hab hba.asymm⟩
  have hnodup : real.Nodup := hreal.imp fun {a b} hlt heq => absurd (heq ▸ hlt) (lt_irrefl _)
  exact List.sublist_of_subperm_of_pairwise (List.subperm_of_subset hnodup hmem) hreal hl

/-- Where every candidate is one of some that do not overlap, or starts inside of one of these,
exactly these are taken. -/
theorem scan_eq_of_covered {real : List α} (hl : l.Pairwise (fun a b => start a < start b))
    (hsub : real.Sublist l) (hreal : real.Pairwise (fun a b => finish a ≤ start b))
    (hbusy : ∀ a ∈ real, busy ≤ start a)
    (hcover : ∀ b ∈ l, b ∈ real ∨ start b < busy ∨
      ∃ a ∈ real, start a < start b ∧ start b < finish a) :
    scan start finish busy l = real := by
  induction l generalizing real busy with
  | nil => exact (List.sublist_nil.mp hsub).symm
  | cons c l ih =>
      obtain ⟨hc, hl⟩ := List.pairwise_cons.mp hl
      unfold scan
      cases hsub with
      | cons _ hsub =>
          have hskip : start c < busy := by
            rcases hcover c (by simp) with hmem | hlt | ⟨a, ha, hlt, -⟩
            · exact absurd (hc c (hsub.subset hmem)) (lt_irrefl _)
            · exact hlt
            · exact absurd (hc a (hsub.subset ha)) (not_lt.mpr hlt.le)
          rw [if_pos hskip]
          exact ih hl hsub hreal hbusy (fun b hb => hcover b (List.mem_cons_of_mem _ hb))
      | cons_cons _ hsub =>
          obtain ⟨hafter, hreal⟩ := List.pairwise_cons.mp hreal
          have hfree : busy ≤ start c := hbusy c (by simp)
          rw [if_neg (not_lt.mpr hfree)]
          congr 1
          refine ih hl hsub hreal hafter (fun b hb => ?_)
          rcases hcover b (List.mem_cons_of_mem _ hb) with hmem | hlt | ⟨a, ha, hlt, hin⟩
          · rcases List.mem_cons.mp hmem with rfl | hmem
            · exact absurd (hc b hb) (lt_irrefl _)
            · exact Or.inl hmem
          · exact absurd (hlt.trans_le hfree) (not_lt.mpr (hc b hb).le)
          · rcases List.mem_cons.mp ha with rfl | ha
            · exact Or.inr (Or.inl hin)
            · exact Or.inr (Or.inr ⟨a, ha, hlt, hin⟩)

end Scan

end Greedy
