import InsteonRf.RecoverAgreement

/-!
# The repair search

The search toggles bits of one working list, and toggles them back after a failed trial. It
finds a smallest set of suspects whose toggling makes the checks pass, if there is one.
-/
namespace InsteonRf
open Selection

namespace Recover

/-- The trials of one size. The working list is toggled in place, and back again when the
checks fail. -/
def tryEach (nframes : ℕ) (extended : Bool) :
    List Bool → List (List ℕ) → List Bool × Option (List Byte)
  | trial, [] => (trial, none)
  | trial, combo :: combos =>
      let trial := flipAt trial combo
      if passes nframes extended trial then (trial, some (bytesFrom trial nframes))
      else tryEach nframes extended (flipAt trial combo) combos

def trySizes (nframes : ℕ) (extended : Bool) (suspects : List ℕ) :
    List Bool → List ℕ → Option (List Byte × ℕ)
  | _, [] => none
  | trial, k :: sizes =>
      match tryEach nframes extended trial (combinations suspects k) with
      | (_, some data) => some (data, k)
      | (trial, none) => trySizes nframes extended suspects trial sizes

/-- `_repair`, on the working list. -/
def repairInPlace (values : List Bool) (conf : List ℚ) (nframes : ℕ) (extended : Bool)
    (max_flips candidates : ℤ) : Option (List Byte × ℕ) :=
  if dataPositions nframes values.length = [] then none
  else
    let suspects := suspects conf nframes values.length candidates
    if suspects = [] then none
    else trySizes nframes extended suspects values
      ((List.range max_flips.toNat).map (fun k => k + 1))

def toggled (values : List Bool) (T : Finset ℕ) : List Bool :=
  values.mapIdx (fun i b => b ^^ decide (i ∈ T))

theorem flipAt_eq_toggled {combo : List ℕ} (h : combo.Nodup) (values : List Bool) :
    flipAt values combo = toggled values combo.toFinset := by
  apply List.ext_getElem?
  intro i
  rw [getElem?_flipAt h, toggled, List.getElem?_mapIdx]
  simp only [List.mem_toFinset]

theorem flipAt_flipAt {combo : List ℕ} (h : combo.Nodup) (values : List Bool) :
    flipAt (flipAt values combo) combo = values := by
  apply List.ext_getElem?
  intro i
  rw [getElem?_flipAt h, getElem?_flipAt h, Option.map_map]
  cases values[i]? with
  | none => rfl
  | some b => simp

theorem tryEach_eq (nframes : ℕ) (extended : Bool) {combos : List (List ℕ)}
    (h : ∀ combo ∈ combos, combo.Nodup) (trial : List Bool) :
    tryEach nframes extended trial combos =
      match combos.find? (fun combo => passes nframes extended (flipAt trial combo)) with
      | some combo => (flipAt trial combo, some (bytesFrom (flipAt trial combo) nframes))
      | none => (trial, none) := by
  induction combos with
  | nil => rfl
  | cons combo combos ih =>
      obtain ⟨hcombo, hrest⟩ := List.forall_mem_cons.mp h
      rw [tryEach, List.find?_cons]
      cases hpass : passes nframes extended (flipAt trial combo) with
      | true => simp
      | false =>
          simp only [Bool.false_eq_true, if_false]
          rw [flipAt_flipAt hcombo]
          exact ih hrest

theorem trySizes_eq (nframes : ℕ) (extended : Bool) {suspects : List ℕ} (h : suspects.Nodup)
    (values : List Bool) (sizes : List ℕ) :
    trySizes nframes extended suspects values sizes =
      ((sizes.flatMap (combinations suspects)).find?
        (fun combo => passes nframes extended (flipAt values combo))).map
        (fun combo => (bytesFrom (flipAt values combo) nframes, combo.length)) := by
  induction sizes with
  | nil => rfl
  | cons k sizes ih =>
      have hnodup : ∀ combo ∈ combinations suspects k, combo.Nodup :=
        fun combo hcombo => (combinations_sublist hcombo).1.nodup h
      rw [trySizes, tryEach_eq nframes extended hnodup, List.flatMap_cons, List.find?_append]
      cases hfind : (combinations suspects k).find?
          (fun combo => passes nframes extended (flipAt values combo)) with
      | none => simpa using ih
      | some combo =>
          have hlen := (combinations_sublist (List.mem_of_find?_eq_some hfind)).2
          simp [hlen]

/-- On the working list the search does what it does on a fresh copy for each trial. -/
theorem repairInPlace_eq (values : List Bool) (conf : List ℚ) (nframes : ℕ) (extended : Bool)
    (max_flips candidates : ℤ) :
    repairInPlace values conf nframes extended max_flips candidates =
      repair values conf nframes extended max_flips candidates := by
  have hnone : suspects conf nframes values.length candidates = [] →
      repair values conf nframes extended max_flips candidates = none := by
    intro h
    have hall : ∀ m, combinationsUpTo ([] : List ℕ) m = [] := by
      intro m
      refine List.eq_nil_iff_forall_not_mem.mpr ?_
      intro c hc
      obtain ⟨hsub, hne, -⟩ := mem_combinationsUpTo.mp hc
      exact hne (List.sublist_nil.mp hsub)
    rw [repair, search, h]
    change ((combinationsUpTo [] _).find? _).map _ = none
    rw [hall]
    rfl
  rw [repairInPlace]
  split_ifs with hdata
  · apply (hnone ?_).symm
    apply List.eq_nil_iff_forall_not_mem.mpr
    intro p hp
    have hmem := (suspects_sublist conf nframes values.length candidates).2 p hp
    rw [hdata] at hmem
    cases hmem
  · simp only
    split_ifs with hsuspects
    · exact (hnone hsuspects).symm
    · rw [trySizes_eq nframes extended (suspects_sublist conf nframes _ candidates).1,
        List.flatMap_map]
      rfl

/-- A set of suspects that the search may toggle, and whose toggling makes the checks pass. -/
def Repairs (values : List Bool) (conf : List ℚ) (nframes : ℕ) (extended : Bool)
    (max_flips candidates : ℤ) (T : Finset ℕ) : Prop :=
  T ⊆ (suspects conf nframes values.length candidates).toFinset ∧ T.Nonempty ∧
    (T.card : ℤ) ≤ max_flips ∧ passes nframes extended (toggled values T) = true

theorem exists_combo_iff {values : List Bool} {conf : List ℚ} {nframes : ℕ} {extended : Bool}
    {max_flips candidates : ℤ} {T : Finset ℕ} :
    Repairs values conf nframes extended max_flips candidates T ↔
      ∃ combo ∈ combinationsUpTo (suspects conf nframes values.length candidates) max_flips.toNat,
        combo.toFinset = T ∧ combo.length = T.card ∧
          passes nframes extended (flipAt values combo) = true := by
  have hnodup := (suspects_sublist conf nframes values.length candidates).1
  constructor
  · rintro ⟨hsub, hne, hcard, hpass⟩
    set combo := (suspects conf nframes values.length candidates).filter (· ∈ T)
    have hset : combo.toFinset = T := by
      ext p
      rw [List.mem_toFinset, List.mem_filter, decide_eq_true_iff]
      exact and_iff_right_of_imp fun hp => List.mem_toFinset.mp (hsub hp)
    have hdistinct : combo.Nodup := hnodup.filter _
    have hlen : combo.length = T.card := by rw [← hset, List.toFinset_card_of_nodup hdistinct]
    refine ⟨combo, mem_combinationsUpTo.mpr ⟨List.filter_sublist, ?_, by omega⟩, hset, hlen, ?_⟩
    · apply List.ne_nil_of_length_pos
      rw [hlen]
      exact hne.card_pos
    · rw [flipAt_eq_toggled hdistinct, hset]
      exact hpass
  · rintro ⟨combo, hcombo, rfl, hlen, hpass⟩
    obtain ⟨hsub, hne, hle⟩ := mem_combinationsUpTo.mp hcombo
    refine ⟨?_, (List.toFinset_nonempty_iff combo).mpr hne, ?_, ?_⟩
    · intro p hp
      exact List.mem_toFinset.mpr (hsub.subset (List.mem_toFinset.mp hp))
    · have hpos := List.length_pos_iff.mpr hne
      omega
    · rw [← flipAt_eq_toggled (hsub.nodup hnodup)]
      exact hpass

/-- The search fails exactly when no set of suspects repairs the values, and else answers with
a smallest one that does. -/
theorem repairInPlace_exact (values : List Bool) (conf : List ℚ) (nframes : ℕ) (extended : Bool)
    (max_flips candidates : ℤ) :
    (repairInPlace values conf nframes extended max_flips candidates = none ↔
      ∀ T, ¬ Repairs values conf nframes extended max_flips candidates T) ∧
    ∀ data k, repairInPlace values conf nframes extended max_flips candidates = some (data, k) →
      (∃ T, Repairs values conf nframes extended max_flips candidates T ∧ T.card = k ∧
        data = bytesFrom (toggled values T) nframes) ∧
      ∀ T, Repairs values conf nframes extended max_flips candidates T → k ≤ T.card := by
  rw [repairInPlace_eq, repair, search]
  set suspected := suspects conf nframes values.length candidates with hsuspected
  set good := fun combo => passes nframes extended (flipAt values combo) with hgood
  change (((combinationsUpTo suspected max_flips.toNat).find? good).map _ = none ↔ _) ∧
    ∀ data k, ((combinationsUpTo suspected max_flips.toNat).find? good).map _ = _ → _
  constructor
  · rw [Option.map_eq_none_iff, List.find?_eq_none]
    constructor
    · intro h T hT
      obtain ⟨combo, hcombo, -, -, hpass⟩ := exists_combo_iff.mp hT
      exact h combo hcombo hpass
    · intro h combo hcombo hpass
      obtain ⟨hsub, -, -⟩ := mem_combinationsUpTo.mp hcombo
      have hdistinct := hsub.nodup (suspects_sublist conf nframes values.length candidates).1
      exact h combo.toFinset (exists_combo_iff.mpr
        ⟨combo, hcombo, rfl, (List.toFinset_card_of_nodup hdistinct).symm, hpass⟩)
  · intro data k h
    obtain ⟨combo, hfind, hanswer⟩ := Option.map_eq_some_iff.mp h
    obtain ⟨rfl, rfl⟩ := Prod.mk.inj hanswer
    have hcombo := List.mem_of_find?_eq_some hfind
    have hpass : good combo = true := List.find?_some hfind
    obtain ⟨hsub, -, -⟩ := mem_combinationsUpTo.mp hcombo
    have hdistinct := hsub.nodup (suspects_sublist conf nframes values.length candidates).1
    have hcard := List.toFinset_card_of_nodup hdistinct
    refine ⟨⟨combo.toFinset, ?_, hcard, ?_⟩, ?_⟩
    · exact exists_combo_iff.mpr ⟨combo, hcombo, rfl, hcard.symm, hpass⟩
    · rw [flipAt_eq_toggled hdistinct]
    · intro T hT
      obtain ⟨other, hother, -, hlen, hother'⟩ := exists_combo_iff.mp hT
      rw [← hlen]
      exact find?_combinationsUpTo_min hfind hother hother'

/-- The suspects if the median is taken as it is, zero included. -/
def suspectsBelowHalf (conf : List ℚ) (nframes size : ℕ) (candidates : ℤ) : List ℕ :=
  let positions := dataPositions nframes size
  let confAt := fun p => conf.getD p 0
  SignedIndex.upTo (sortOn confAt (positions.filter
    (fun p => decide (confAt p ≤ suspectRatio * median (positions.map confAt))))) candidates

def wrongBitValues : List Bool :=
  ((((expectedIndexes false).zip cleanPacket.data).flatMap logicalBits).take 130).modify 96 (!·)

/-- A little confidence in the wrong bit, more in those that the CRC cannot tell from it, and
none in the others. -/
def flatConf : List ℚ :=
  (List.range 130).map
    (fun p => if p = 96 then 1 / 4 else if p ∈ [18, 44, 70, 122] then 1 else 0)

theorem repair_zeroMedian :
    repairInPlace wrongBitValues flatConf 10 false 1 100 = some (cleanPacket.data.take 10, 1) ∧
      median ((dataPositions 10 130).map (fun p => flatConf.getD p 0)) = 0 ∧
      ∀ T ⊆ (suspectsBelowHalf flatConf 10 130 100).toFinset, T.Nonempty → T.card ≤ 1 →
        passes 10 false (toggled wrongBitValues T) = false := by
  refine ⟨by decide +kernel, by decide +kernel, ?_⟩
  intro T hT hne hcard
  have hsingle : (suspectsBelowHalf flatConf 10 130 100).all
      (fun p => !passes 10 false (flipAt wrongBitValues [p])) = true := by
    decide +kernel
  obtain ⟨p, rfl⟩ := Finset.card_eq_one.mp (le_antisymm hcard hne.card_pos)
  have hmem := List.mem_toFinset.mp (hT (Finset.mem_singleton_self p))
  have hfail := List.all_eq_true.mp hsingle p hmem
  rw [flipAt_eq_toggled (List.nodup_singleton p)] at hfail
  simpa using hfail

end Recover

end InsteonRf
