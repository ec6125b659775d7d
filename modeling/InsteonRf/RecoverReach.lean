import InsteonRf.RecoverSingle

/-!
# What a repair can reach

An accepted repair is one of the smallest that pass. It flips no bit behind the CRC, which
is part of no check, and so two readings that lead to one message are at most as many bits
apart up to the CRC as two repairs can flip.
-/
namespace InsteonRf
open LsbBits Selection

namespace Recover

theorem bytesFrom_take (values : List Bool) (n m : ℕ) :
    (bytesFrom values n).take m = bytesFrom (values.take (m * frameLogicalBits)) (min m n) := by
  rw [bytesFrom, bytesFrom, ← List.map_take, List.take_range]
  apply List.map_congr_left
  intro f hf
  have hm : f < m := (List.mem_range.mp hf).trans_le (min_le_left m n)
  have hroom : f * frameLogicalBits + frameIndexBits + frameDataBits ≤ m * frameLogicalBits := by
    have := Nat.mul_le_mul_right frameLogicalBits hm
    simp only [frameLogicalBits, frameIndexBits, frameDataBits] at this ⊢
    omega
  rw [List.drop_take, List.take_take, Nat.min_eq_left (by omega)]

theorem bytesFrom_drop (values : List Bool) (n m : ℕ) :
    (bytesFrom values n).drop m = bytesFrom (values.drop (m * frameLogicalBits)) (n - m) := by
  rw [bytesFrom, bytesFrom, ← List.map_drop, List.range_eq_range', List.drop_range',
    List.range_eq_range', List.range'_eq_map_range, List.range'_eq_map_range, List.map_map,
    List.map_map]
  apply List.map_congr_left
  intro f _
  simp only [Function.comp_apply, List.drop_drop]
  have hplace : (0 + m * 1 + f) * frameLogicalBits + frameIndexBits =
      m * frameLogicalBits + ((0 + f) * frameLogicalBits + frameIndexBits) := by ring
  rw [hplace]

theorem getD_of_bytesFrom_eq {v w : List Bool} {n p : ℕ} (h : bytesFrom v n = bytesFrom w n)
    (hp : frameIndexBits ≤ p % frameLogicalBits) (hin : p < n * frameLogicalBits) :
    v.getD p false = w.getD p false := by
  have hframe : p / frameLogicalBits < n := Nat.div_lt_of_lt_mul (by rwa [Nat.mul_comm])
  have hbyte := congrArg (·[p / frameLogicalBits]?) h
  simp only [bytesFrom, List.getElem?_map, List.getElem?_range hframe, Option.map_some,
    Option.some.injEq] at hbyte
  rw [← getLsbD_byte hp, hbyte, getLsbD_byte hp]

theorem flipAt_take {positions chosen : List ℕ} (hp : positions.Nodup) (hc : chosen.Nodup)
    (values : List Bool) {n : ℕ} (h : ∀ p < n, p ∈ positions ↔ p ∈ chosen) :
    (flipAt values positions).take n = (flipAt values chosen).take n := by
  apply List.ext_getElem?
  intro i
  rw [List.getElem?_take, List.getElem?_take]
  split_ifs with hi
  · rw [getElem?_flipAt hp, getElem?_flipAt hc]
    simp only [h i hi]
  · rfl

theorem flipAt_drop {positions : List ℕ} (hp : positions.Nodup) (values : List Bool) {n : ℕ}
    (h : ∀ p ∈ positions, p < n) : (flipAt values positions).drop n = values.drop n := by
  apply List.ext_getElem?
  intro i
  rw [List.getElem?_drop, List.getElem?_drop, getElem?_flipAt hp]
  have hout : n + i ∉ positions := fun hmem => by
    have := h _ hmem
    omega
  cases values[n + i]? with
  | none => rfl
  | some b => simp [hout]

theorem crcOk_congr {a b : List Byte} {extended : Bool} (hlen : a.length = b.length)
    (ha : isExtended (firstByte a) = extended) (hb : isExtended (firstByte b) = extended)
    (htake : a.take (crcPlace extended + 1) = b.take (crcPlace extended + 1)) :
    crcOk a extended = crcOk b extended := by
  have hbelow : ∀ n ≤ crcPlace extended + 1, a.take n = b.take n := by
    intro n hn
    have hsame := congrArg (List.take n) htake
    rwa [List.take_take, List.take_take, Nat.min_eq_left hn] at hsame
  have hget : ∀ i ≤ crcPlace extended, a.getD i 0 = b.getD i 0 := by
    intro i hi
    have hsame := congrArg (·[i]?) htake
    simp only [List.getElem?_take, show i < crcPlace extended + 1 by omega, if_true] at hsame
    rw [List.getD_eq_getElem?_getD, List.getD_eq_getElem?_getD, hsame]
  have hcrc : pktCrc a = pktCrc b := by
    rw [pktCrc_eq ha, pktCrc_eq hb, hbelow _ (Nat.le_succ _)]
  cases extended with
  | false =>
      have hplace : a.getD stdCrcIndex 0 = b.getD stdCrcIndex 0 := hget _ le_rfl
      simp only [crcOk, Bool.false_eq_true, if_false, hlen, hcrc, hplace]
  | true =>
      have hplace : a.getD extCrcIndex 0 = b.getD extCrcIndex 0 := hget _ le_rfl
      have hdata : a.getD 22 0 = b.getD 22 0 := hget _ (by decide)
      have hext : extCrc a = extCrc b := by
        rw [extCrc, extCrc, hbelow extDataCrcIndex (by decide)]
      simp only [crcOk, if_true, hlen, hcrc, hplace, hdata, hext]

theorem isExtended_flipAt {values : List Bool} {positions : List ℕ} {n : ℕ} {extended : Bool}
    (hnodup : positions.Nodup) (hn : 0 < n) (hin : extPosition < values.length)
    (hkind : values.getD extPosition false = extended) (hext : extPosition ∉ positions) :
    isExtended (firstByte (bytesFrom (flipAt values positions) n)) = extended := by
  rw [isExtended_bytesFrom _ hn, getD_flipAt hnodup hin, hkind]
  simp [hext]

/-- What the search accepts lies up to the CRC: a bit behind it could be left as it is. -/
theorem search_reach {values : List Bool} {conf : List ℚ} {nframes : ℕ} {extended : Bool}
    {max_flips candidates : ℤ} {combo : List ℕ} (hn : 0 < nframes)
    (hin : extPosition < values.length) (hkind : values.getD extPosition false = extended)
    (hfails : crcOk (bytesFrom values nframes) extended = false)
    (h : search values conf nframes extended max_flips candidates = some combo)
    (hext : extPosition ∉ combo) :
    ∀ p ∈ combo, p < (crcPlace extended + 1) * frameLogicalBits := by
  obtain ⟨hpass, hnodup, hbits⟩ := search_some h
  obtain ⟨d, hd⟩ : ∃ d, combo.filter (fun p => decide
    (p < (crcPlace extended + 1) * frameLogicalBits)) = d := ⟨_, rfl⟩
  have hsub : d.Sublist combo := hd ▸ List.filter_sublist
  have hdnodup := hsub.nodup hnodup
  have hdext : extPosition ∉ d := fun hmem => hext (hsub.subset hmem)
  rw [passes, Bool.and_eq_true] at hpass
  -- the chosen bits up to the CRC pass by themselves
  have hcrc : crcOk (bytesFrom (flipAt values d) nframes) extended = true := by
    rw [← hpass.1]
    apply crcOk_congr (by simp) (isExtended_flipAt hdnodup hn hin hkind hdext)
      (isExtended_flipAt hnodup hn hin hkind hext)
    rw [bytesFrom_take, bytesFrom_take, flipAt_take hdnodup hnodup]
    intro p hp
    rw [← hd, List.mem_filter]
    exact and_iff_left (decide_eq_true hp)
  have hcounters : indexErrors (flipAt values d) nframes extended = 0 := by
    rw [indexErrors, countersFrom_flipAt hdnodup (fun p hp => (hbits p (hsub.subset hp)).1)]
    exact search_counters h
  have hdpass : passes nframes extended (flipAt values d) = true := by
    rw [passes, hcrc, hcounters]
    rfl
  by_cases hnil : d = []
  · -- then nothing needed to be flipped
    rw [hnil] at hcrc
    rw [show flipAt values [] = values from rfl, hfails] at hcrc
    cases hcrc
  · obtain ⟨hfrom, -, hle⟩ := mem_combinationsUpTo.mp (List.mem_of_find?_eq_some h)
    have hmem : d ∈ combinationsUpTo (suspects conf nframes values.length candidates)
        max_flips.toNat :=
      mem_combinationsUpTo.mpr ⟨hsub.trans hfrom, hnil, hsub.length_le.trans hle⟩
    have hmin := find?_combinationsUpTo_min (p := fun combo =>
      passes nframes extended (flipAt values combo)) h hmem hdpass
    have hsame : d = combo := hsub.eq_of_length_le hmin
    intro p hp
    rw [← hsame, ← hd] at hp
    exact of_decide_eq_true (List.mem_filter.mp hp).2

/-- The reading a recovered packet was made of, and what was flipped of it. -/
structure Repaired (sym : List ℚ) (pos : ℤ) (o : RecoverOptions) (p : Packet) (extended : Bool)
    (all : List Reading) (flipped : List ℕ) : Prop where
  read : readPacket sym pos = .ok (some (extended, all))
  data : p.data = bytesFrom (flipAt (all.map Reading.value) flipped) p.data.length
  count : all.length = p.data.length * frameLogicalBits
  kind : p.extended = extended
  checked : crcPlace extended < p.data.length
  nodup : flipped.Nodup
  few : flipped.length ≤ o.max_flips.toNat
  reach : ∀ q ∈ flipped, q < (crcPlace extended + 1) * frameLogicalBits

theorem repaired_of_recoverFrom {bits : Bits} {sym : List ℚ} {pos : ℤ} {ts : Option Time}
    {o : RecoverOptions} {r : Recovered} (h : recoverFrom bits sym pos ts o = .ok (some r))
    (hkeep : ¬ FlipsExt sym pos o) :
    ∃ extended all flipped, Repaired sym pos o r.packet extended all flipped := by
  obtain ⟨extended, all, ha⟩ := answer_of_recoverFrom h
  have hkind : r.packet.extended = extended := by
    obtain ⟨hflip, -⟩ | ⟨-, hkind⟩ := ha.kind
    · exact absurd hflip hkeep
    · exact hkind
  have hchecked : crcPlace extended < r.packet.data.length := (crcOk_spec ha.crc).1
  obtain ⟨e, l, hread, hjudge⟩ := recoverFrom_some.mp h
  obtain ⟨rfl, rfl⟩ : extended = e ∧ all = l := by simpa [ha.read] using hread
  obtain ⟨k, hpos, -, hcount, -, hbit⟩ := readPacket_some ha.read
  have hk : all.length / frameLogicalBits = r.packet.data.length := by
    rw [ha.count]
    exact Nat.mul_div_cancel _ (by decide)
  obtain ⟨data, corrected, bad, hsettle, hdata, -, hhops, -⟩ := judge_some hjudge
  obtain ⟨hlimit, hanswer⟩ := settle_some hsettle
  rw [hk] at hanswer
  obtain ⟨-, hfirst, -⟩ | ⟨hfails, hrepair, combo, hsearch, hfixed, -⟩ := hanswer
  · refine ⟨extended, all, [], ha.read, ?_, ha.count, hkind, hchecked, List.nodup_nil,
      Nat.zero_le _, by simp⟩
    rw [hdata, hfirst, length_bytesFrom]
    rfl
  · have hdata' : r.packet.data =
        bytesFrom (flipAt (all.map Reading.value) combo) r.packet.data.length := by
      rw [← hfixed, hdata]
    have hhops' : flagsHopsOk (firstByte (bytesFrom (flipAt (all.map Reading.value) combo)
        (all.length / frameLogicalBits))) = true := by
      rw [hk, ← hdata', ← hopsOk_eq]
      exact hhops
    have hext : extPosition ∉ combo := by
      intro hmem
      exact hkeep ⟨extended, all, combo, ha.read, hlimit, by rwa [hk], hrepair, by rwa [hk], hmem,
        hhops'⟩
    have hin : extPosition < (all.map Reading.value).length := by
      have hpos := ha.pos_len
      rw [List.length_map, ha.count]
      simp only [extPosition, frameIndexBits, frameLogicalBits, frameDataBits]
      omega
    exact ⟨extended, all, combo, ha.read, hdata', ha.count, hkind, hchecked,
      (search_some hsearch).2.1, (mem_combinationsUpTo.mp (List.mem_of_find?_eq_some hsearch)).2.2,
      search_reach ha.pos_len hin hbit hfails hsearch hext⟩

/-- In how many data bits of their first frames two readings differ. -/
def bitsApart (v w : List Reading) (nframes : ℕ) : ℕ :=
  (dataPositions nframes (nframes * frameLogicalBits)).countP (fun p =>
    (v.map Reading.value).getD p false != (w.map Reading.value).getD p false)

/-- Two readings repaired to the same bytes are no further apart than what was flipped. -/
theorem bitsApart_le {v w : List Reading} {c d : List ℕ} {n : ℕ} (hc : c.Nodup) (hd : d.Nodup)
    (hv : n * frameLogicalBits ≤ v.length) (hw : n * frameLogicalBits ≤ w.length)
    (h : bytesFrom (flipAt (v.map Reading.value) c) n =
      bytesFrom (flipAt (w.map Reading.value) d) n) :
    bitsApart v w n ≤ c.length + d.length := by
  rw [bitsApart, List.countP_eq_length_filter, ← List.length_append]
  apply List.Subperm.length_le
  apply List.subperm_of_subset ((dataPositions_nodup _ _).filter _)
  intro p hp
  obtain ⟨hmem, hne⟩ := List.mem_filter.mp hp
  obtain ⟨hdata, hlt⟩ := mem_dataPositions hmem
  have hsame := getD_of_bytesFrom_eq h hdata hlt
  rw [getD_flipAt hc (by rw [List.length_map]; omega),
    getD_flipAt hd (by rw [List.length_map]; omega)] at hsame
  rw [List.mem_append]
  by_contra hout
  obtain ⟨hoc, hod⟩ := not_or.mp hout
  rw [decide_eq_false hoc, decide_eq_false hod, Bool.xor_false, Bool.xor_false] at hsame
  exact bne_iff_ne.mp hne hsame

end Recover

end InsteonRf
