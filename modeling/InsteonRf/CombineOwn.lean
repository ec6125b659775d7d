import InsteonRf.RecoverAgreement

/-!
# Whose packet a combination is

The copies that are combined start at one header, but each runs to the end of its
capture. Acceptance searches every header in the voted string, in either polarity; the
answer is about the copies' own message when it stands at the head of the candidate.
-/
namespace InsteonRf
open Selection StringSearch

/-- In how many positions two strings differ, up to the end of the shorter. -/
def bitDistance (a b : Bits) : ℕ := (a.zip b).countP (fun x => x.1 != x.2)

theorem bitDistance_self (a : Bits) : bitDistance a a = 0 := by
  rw [bitDistance, List.countP_eq_zero]
  intro x hx
  have heq : x.1 = x.2 := by
    rw [List.zip_eq_zipWith, List.zipWith_self, List.mem_map] at hx
    obtain ⟨b, -, rfl⟩ := hx
    rfl
  simp [heq]

def combineTime (sightings : List Sighting) : Option Time := sightings.head?.map Sighting.when

/-- The strings that are tried, in order: the vote, then its flips. -/
def combineCandidates (sightings : List Sighting) (voted : Vote) : List Bits :=
  voted.bits ::
    if maxDisagreements < voted.disagree.length then []
    else ((List.range maxCombineFlips).flatMap
      (fun n => combinations (suspectPositions sightings voted) (n + 1))).map (flipAt voted.bits)

def acceptedCandidate (sightings : List Sighting) (voted : Vote) : Option Bits :=
  (combineCandidates sightings voted).find?
    (fun c => (accept c (combineTime sightings)).isSome)

theorem find?_of_findSome? {α β : Type*} {f : α → Option β} {l : List α} {b : β}
    (h : l.findSome? f = some b) :
    ∃ a ∈ l, l.find? (fun a => (f a).isSome) = some a ∧ f a = some b := by
  induction l with
  | nil => cases h
  | cons a l ih =>
      cases ha : f a with
      | none =>
          rw [List.findSome?_cons, ha] at h
          obtain ⟨c, hc, hfind, hfc⟩ := ih h
          refine ⟨c, List.mem_cons_of_mem a hc, ?_, hfc⟩
          simp [ha, hfind]
      | some b' =>
          rw [List.findSome?_cons, ha] at h
          obtain rfl := Option.some.inj h
          refine ⟨a, List.mem_cons_self, ?_, ha⟩
          simp [ha]

/-- Where the answer of a combination comes from. -/
theorem combine_accepted {sightings : List Sighting} {p : Packet} {n : ℕ}
    (h : combine sightings = some (p, n)) :
    ∃ voted c, vote sightings = some voted ∧ acceptedCandidate sightings voted = some c ∧
      accept c (combineTime sightings) = some p := by
  cases hv : vote sightings with
  | none => simp [combine, hv] at h
  | some voted =>
      have hsome : (combineCandidates sightings voted).findSome?
          (fun c => accept c (combineTime sightings)) = some p := by
        rw [combineCandidates, List.findSome?_cons, combineTime]
        cases ha : accept voted.bits (sightings.head?.map Sighting.when) with
        | some q =>
            simp only [combine, hv, ha, Option.some.injEq, Prod.mk.injEq] at h
            simp [h.1]
        | none =>
            simp only [combine, hv, ha] at h
            split_ifs at h with hmany
            obtain ⟨q, hq, hqp⟩ := Option.map_eq_some_iff.mp h
            rw [if_neg hmany, List.findSome?_map]
            simp only [Prod.mk.injEq] at hqp
            rw [← hqp.1]
            exact hq
      obtain ⟨c, -, hfind, hc⟩ := find?_of_findSome? hsome
      exact ⟨voted, c, rfl, hfind, hc⟩

theorem checks_of_acceptable {p : Packet} (h : acceptable p = true) :
    p.crcOk = some true ∧ p.index_ok ≠ some false ∧ p.hopsOk = true ∧
      (p.extended = true → p.extCrcOk = some true) := by
  simp only [acceptable, Bool.and_eq_true, Bool.not_eq_true', Bool.and_eq_false_iff,
    decide_eq_true_eq, decide_eq_false_iff_not] at h
  obtain ⟨⟨⟨hcrc, hindex⟩, hhops⟩, hext⟩ := h
  refine ⟨hcrc, hindex, hhops, ?_⟩
  intro hx
  have hpresent : extDataCrcIndex < p.data.length := by
    obtain ⟨c, hc, -⟩ := Option.map_eq_some_iff.mp (Packet.crcOk.eq_def p ▸ hcrc)
    obtain ⟨hlen, -⟩ := List.getElem?_eq_some_iff.mp hc
    rw [Packet.crcIndex, if_pos hx] at hlen
    simp only [extCrcIndex, extDataCrcIndex] at hlen ⊢
    omega
  rcases hext with hno | hok
  · rw [hx] at hno
    cases hno
  · rw [Packet.extCrcOk, if_pos hx, List.getElem?_eq_getElem hpresent] at hok ⊢
    simpa using hok

theorem findHeaders_of_head {c : Bits} (h : OccursAt startHeader c 0) :
    ∃ rest, findHeaders c = (c, 0 :: rest) := by
  have hfind : find startHeader c 0 = some 0 :=
    find_of_first le_rfl h (fun i _ hi => absurd hi (Nat.not_lt_zero i))
  have hpolarity : headerInverted c = false := by
    rw [headerInverted, hfind]
    cases find startHeaderInv c 0 <;> simp
  refine ⟨findAll startHeader c c.length (0 + startHeader.length), ?_⟩
  rw [findHeaders, hpolarity]
  simp [findAll, hfind]

theorem accept_of_head {c : Bits} {ts : Option Time} {p : Packet} (hhead : OccursAt startHeader c 0)
    (hp : parseAt c ts 4 0 = some p) (hok : acceptable p = true) : accept c ts = some p := by
  obtain ⟨rest, hheaders⟩ := findHeaders_of_head hhead
  rw [accept, parseBits, hheaders]
  simp [hp, hok]

end InsteonRf
