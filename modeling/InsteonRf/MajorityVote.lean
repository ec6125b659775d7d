import InsteonRf.CombineOwn
import InsteonRf.Message
import Mathlib.Data.Bool.Count

/-!
# Voting by majority

Copies of different lengths are voted position by position, each position by the copies
that reach it. Where more than half of these are right at every symbol of a message, the
vote begins with the message, and the message is what its header is decoded to.
-/
namespace InsteonRf
open Selection StringSearch

theorem getElem?_columns {width : ℕ} {rows : List (List ℚ)} {i : ℕ} (h : i < width) :
    (columns width rows)[i]? = some (rows.filterMap (fun r => r[i]?)) := by
  induction i generalizing width rows with
  | zero =>
      obtain ⟨width, rfl⟩ := Nat.exists_eq_succ_of_ne_zero (Nat.ne_of_gt h)
      have hhead : (fun r : List ℚ => r[0]?) = List.head? := by
        funext r
        exact List.head?_eq_getElem?.symm
      rw [columns, hhead]
      rfl
  | succ i ih =>
      obtain ⟨width, rfl⟩ := Nat.exists_eq_succ_of_ne_zero (Nat.ne_of_gt (Nat.zero_lt_of_lt h))
      rw [columns, List.getElem?_cons_succ, ih (Nat.succ_lt_succ_iff.mp h), List.filterMap_map]
      congr 2
      funext r
      exact List.getElem?_tail

/-- A hard vote: one in each direction. -/
def signOf (b : Bool) : ℚ := if b then 1 else -1

theorem sum_signs (bs : List Bool) :
    (bs.map signOf).sum = (bs.count true : ℚ) - bs.count false := by
  induction bs with
  | nil => simp
  | cons b bs ih =>
      rw [List.map_cons, List.sum_cons, ih]
      cases b
      · simp [signOf]
        ring
      · simp [signOf]
        ring

/-- A strict majority decides its column. -/
theorem decideColumn_majority {bs : List Bool} {b : Bool} (h : bs.length < 2 * bs.count b) :
    decideColumn (bs.map signOf) = b := by
  have hsplit : bs.count true + bs.count false = bs.length := List.count_true_add_count_false bs
  have hpos : (0 : ℚ) < max ((bs.map signOf).length : ℚ) 1 := lt_max_of_lt_right one_pos
  rw [decideColumn, columnMargin, sum_signs]
  cases b with
  | true =>
      have hlt : (0 : ℚ) < (bs.count true : ℚ) - bs.count false := by
        have : bs.count false < bs.count true := by omega
        exact sub_pos.mpr (by exact_mod_cast this)
      rw [if_pos (div_pos hlt hpos)]
  | false =>
      have hlt : (bs.count true : ℚ) - bs.count false < 0 := by
        have : bs.count true < bs.count false := by omega
        exact sub_neg.mpr (by exact_mod_cast this)
      have hneg := div_neg_of_neg_of_pos hlt hpos
      rw [if_neg hneg.not_gt, if_pos hneg]

/-- More than half of the copies that reach the position carry this symbol there. -/
def Majority (sightings : List Sighting) (i : ℕ) (b : Bool) : Prop :=
  (sightings.filter (fun s => decide (i < s.bits.length))).length <
    2 * (sightings.filter (fun s => decide (s.bits[i]? = some b))).length

instance (sightings : List Sighting) (i : ℕ) (b : Bool) : Decidable (Majority sightings i b) :=
  inferInstanceAs (Decidable (_ < _))

def symbolsAt (sightings : List Sighting) (i : ℕ) : List Bool :=
  sightings.filterMap (fun s => s.bits[i]?)

theorem symbolsAt_majority {sightings : List Sighting} {i : ℕ} {b : Bool}
    (h : Majority sightings i b) :
    (symbolsAt sightings i).length < 2 * (symbolsAt sightings i).count b := by
  have hlen : (symbolsAt sightings i).length =
      (sightings.filter (fun s => decide (i < s.bits.length))).length := by
    rw [symbolsAt, List.length_filterMap_eq_countP, List.countP_eq_length_filter]
    congr 1
    apply List.filter_congr
    intro s _
    rw [Bool.eq_iff_iff]
    simp
  have hcount : (symbolsAt sightings i).count b =
      (sightings.filter (fun s => decide (s.bits[i]? = some b))).length := by
    rw [symbolsAt, List.count_filterMap, List.countP_eq_length_filter]
    congr 1
    apply List.filter_congr
    intro s _
    exact beq_eq_decide _ _
  rw [hlen, hcount]
  exact h

theorem exists_of_majority {sightings : List Sighting} {i : ℕ} {b : Bool}
    (h : Majority sightings i b) : ∃ s ∈ sightings, i < s.bits.length := by
  have hne : sightings.filter (fun s => decide (s.bits[i]? = some b)) ≠ [] := by
    intro hnil
    rw [Majority, hnil] at h
    exact Nat.not_lt_zero _ h
  obtain ⟨s, hs⟩ := List.exists_mem_of_ne_nil _ hne
  obtain ⟨hmem, hget⟩ := List.mem_filter.mp hs
  exact ⟨s, hmem, (List.getElem?_eq_some_iff.mp (of_decide_eq_true hget)).1⟩

/-- A column of hard votes; a copy without symbols has no part in it. -/
theorem votes_column {sightings : List Sighting} (hhard : ∀ s ∈ sightings, s.soft = none) (i : ℕ) :
    ((sightings.filter (fun s => decide (s.bits ≠ []))).map Sighting.votes).filterMap
      (fun r => r[i]?) = (symbolsAt sightings i).map signOf := by
  rw [symbolsAt, List.map_filterMap, List.filterMap_map, List.filterMap_filter]
  apply List.filterMap_congr
  intro s hs
  by_cases hbits : s.bits = []
  · simp [hbits]
  · simp only [hbits, ne_eq, not_false_eq_true, decide_true, if_true, Function.comp_apply,
      Sighting.votes, hhard s hs, List.getElem?_map]
    rfl

/-- Hard copies, at least two of them with symbols, are voted, and a majority decides its
position. -/
theorem vote_majority {sightings : List Sighting} (hhard : ∀ s ∈ sightings, s.soft = none)
    (htwo : 2 ≤ (sightings.filter (fun s => decide (s.bits ≠ []))).length) :
    ∃ voted, vote sightings = some voted ∧
      ∀ i b, Majority sightings i b → voted.bits[i]? = some b := by
  rw [vote]
  cases hruns : sightings.filter (fun s => decide (s.bits ≠ [])) with
  | nil =>
      rw [hruns] at htwo
      simp at htwo
  | cons first rest =>
      have hrest : ¬ (rest = [] ∧ first.soft = none) := by
        rintro ⟨rfl, -⟩
        rw [hruns] at htwo
        simp at htwo
      simp only [if_neg hrest]
      refine ⟨_, rfl, ?_⟩
      intro i b hmaj
      obtain ⟨s, hs, hreach⟩ := exists_of_majority hmaj
      have hsruns : s ∈ first :: rest := by
        rw [← hruns]
        exact List.mem_filter.mpr ⟨hs, decide_eq_true (List.ne_nil_of_length_pos (Nat.zero_lt_of_lt hreach))⟩
      have hwidth : i < ((first :: rest).map (fun s => s.bits.length)).foldl max 0 :=
        hreach.trans_le (((foldl_max_le _ _ _).mp le_rfl).2 _ (List.mem_map_of_mem hsruns))
      rw [List.getElem?_map, getElem?_columns hwidth, ← hruns, votes_column hhard, Option.map_some,
        decideColumn_majority (symbolsAt_majority hmaj)]

theorem acceptable_of_valid {q : Packet} (h : q.Valid) (hindex : q.index_ok = some true) :
    acceptable q = true := by
  have hext : (q.extended && decide (q.extCrcOk = some false)) = false := by
    cases hx : q.extended with
    | false => rfl
    | true => rw [h.extCrc hx]; rfl
  simp [acceptable, h.crc, h.hops, hindex, hext]

theorem accept_message {p : Packet} (h : p.Valid) (rest : Bits) (ts : Option Time) :
    ∃ q, accept (p.messageBits ++ rest) ts = some q ∧ q.data = p.data := by
  obtain ⟨q, hq, hback⟩ := Packet.parseAt_messageBits h ts [] rest
  rw [List.nil_append, List.length_nil] at hq
  exact ⟨q, accept_of_head (Packet.header_messageBits h rest) hq
    (acceptable_of_valid (h.of_data hback.data) hback.index_ok), hback.data⟩

/-- Where more than half of the copies that reach a symbol of a message have it right, at
every symbol, combining answers with the message. -/
theorem combine_majority (p : Packet) (hp : p.Valid) (sightings : List Sighting)
    (hhard : ∀ s ∈ sightings, s.soft = none)
    (htwo : 2 ≤ (sightings.filter (fun s => decide (s.bits ≠ []))).length)
    (hmaj : ∀ i b, p.messageBits[i]? = some b → Majority sightings i b) :
    ∃ q, combine sightings = some (q, sightings.length) ∧ q.data = p.data := by
  obtain ⟨voted, hvoted, hdecided⟩ := vote_majority hhard htwo
  have hprefix : p.messageBits <+: voted.bits := by
    apply List.prefix_iff_getElem?.mpr
    intro i hi
    exact hdecided i _ (hmaj i _ (List.getElem?_eq_getElem hi))
  obtain ⟨rest, hbits⟩ := hprefix
  obtain ⟨q, hq, hdata⟩ := accept_message hp rest (sightings.head?.map Sighting.when)
  refine ⟨q, ?_, hdata⟩
  rw [combine]
  simp only [hvoted, ← hbits, hq]

def hardCopy (bits : Bits) : Sighting :=
  Sighting.build Recover.cleanPacket "a" none (some 0) bits none none 0

theorem bits_hardCopy {bits : Bits} (h : bits ≠ []) : (hardCopy bits).bits = bits := by
  simp [hardCopy, Sighting.build, h]

/-- Three copies, two of them wrong at a symbol of their own, and one runs on. -/
def outvotedCopies : List Sighting :=
  [hardCopy (flipAt Recover.cleanLine [40]), hardCopy (flipAt (Recover.cleanLine ++ [true]) [200]),
    hardCopy Recover.cleanLine]

theorem majority_outvotedCopies (i : ℕ) (b : Bool) (h : Recover.cleanLine[i]? = some b) :
    Majority outvotedCopies i b := by
  obtain ⟨hi, -⟩ := List.getElem?_eq_some_iff.mp h
  have hne : ∀ l : Bits, i < l.length → l ≠ [] := fun l hl =>
    List.ne_nil_of_length_pos (Nat.zero_lt_of_lt hl)
  have hfirst : (flipAt Recover.cleanLine [40])[i]? = some (b ^^ decide (i = 40)) := by
    rw [Recover.getElem?_flipAt (List.nodup_singleton 40), h]
    simp
  have hsecond : (flipAt (Recover.cleanLine ++ [true]) [200])[i]? = some (b ^^ decide (i = 200)) := by
    rw [Recover.getElem?_flipAt (List.nodup_singleton 200), List.getElem?_append_left hi, h]
    simp
  obtain ⟨hi₁, -⟩ := List.getElem?_eq_some_iff.mp hfirst
  obtain ⟨hi₂, -⟩ := List.getElem?_eq_some_iff.mp hsecond
  simp only [Majority, outvotedCopies, List.filter_cons, List.filter_nil, bits_hardCopy (hne _ hi),
    bits_hardCopy (hne _ hi₁), bits_hardCopy (hne _ hi₂), h, hfirst, hsecond, hi, hi₁, hi₂]
  by_cases h₁ : i = 40
  · subst h₁
    cases b <;> decide
  · by_cases h₂ : i = 200
    · subst h₂
      cases b <;> decide
    · simp [h₁, h₂]

theorem combine_outvotedCopies :
    ∃ q, combine outvotedCopies = some (q, 3) ∧ q.data = Recover.cleanPacket.data := by
  have hvalid : Recover.cleanPacket.Valid := by
    constructor <;> decide +kernel
  have hbits : Recover.cleanPacket.messageBits = Recover.cleanLine := by decide +kernel
  refine combine_majority Recover.cleanPacket hvalid outvotedCopies (by decide +kernel)
    (by decide +kernel) ?_
  intro i b hb
  rw [hbits] at hb
  exact majority_outvotedCopies i b hb

/-- One copy of a message and one without symbols, in a packet without them. -/
def copyAndNothing : List Sighting := [hardCopy Recover.cleanLine, hardCopy []]

theorem majority_copyAndNothing (i : ℕ) (b : Bool) (h : Recover.cleanLine[i]? = some b) :
    Majority copyAndNothing i b := by
  obtain ⟨hi, -⟩ := List.getElem?_eq_some_iff.mp h
  have hne : Recover.cleanLine ≠ [] := List.ne_nil_of_length_pos (Nat.zero_lt_of_lt hi)
  have hnothing : (hardCopy []).bits = [] := rfl
  simp only [Majority, copyAndNothing, List.filter_cons, List.filter_nil, bits_hardCopy hne,
    hnothing, h, hi]
  simp

/-- Every symbol has its majority of one, but one copy is not voted. -/
theorem combine_copyAndNothing :
    combine copyAndNothing = none ∧
      ¬ ∀ p : Packet, p.Valid → ∀ sightings : List Sighting, (∀ s ∈ sightings, s.soft = none) →
        2 ≤ sightings.length →
        (∀ i b, p.messageBits[i]? = some b → Majority sightings i b) →
        ∃ q n, combine sightings = some (q, n) ∧ q.data = p.data := by
  have hnone : combine copyAndNothing = none := by decide +kernel
  refine ⟨hnone, ?_⟩
  intro hclaim
  have hbits : Recover.cleanPacket.messageBits = Recover.cleanLine := by decide +kernel
  obtain ⟨q, n, hq, -⟩ := hclaim Recover.cleanPacket (by constructor <;> decide +kernel)
    copyAndNothing (by decide +kernel) (by decide)
    (fun i b hb => majority_copyAndNothing i b (hbits ▸ hb))
  rw [hnone] at hq
  cases hq

end InsteonRf
