import InsteonRf.Message
import InsteonRf.RecoverAgreement

/-!
# One wrong symbol

A wrong symbol makes its pair illegal, and an illegal hard pair is read as 0 with no
confidence. In a frame marker, or in a pair that stood for 0, it goes unnoticed; in a
counter it is one of the counter errors that are tolerated; in a data byte under the CRC the
checks fail and the pair is the only suspect.
-/
namespace InsteonRf
open LsbBits Selection StringSearch SignedIndex

namespace Recover

theorem modify_append {α : Type*} (f : α → α) (a b : List α) (i : ℕ) :
    (a ++ b).modify i f =
      if i < a.length then a.modify i f ++ b else a ++ b.modify (i - a.length) f := by
  induction a generalizing i with
  | nil => simp
  | cons x a ih =>
      cases i with
      | zero => simp
      | succ i =>
          rw [List.cons_append, List.modify_succ_cons, ih, List.length_cons, List.modify_succ_cons,
            Nat.add_sub_add_right]
          simp only [Nat.add_lt_add_iff_right]
          split_ifs <;> rfl

/-- The reading of a legal hard pair. -/
def sure (b : Bool) : Reading := ⟨b, 2, false⟩

/-- The reading of an illegal hard pair. -/
def doubtful : Reading := ⟨false, 0, true⟩

theorem reading_encodeBit (b : Bool) (l : Bits) (n : ℕ) :
    readings (hardSoft (encodeBit b ++ l)) (n + 1) = sure b :: readings (hardSoft l) n := by
  cases b
  · change reading 1 (-1) :: _ = _
    norm_num [reading, sure]
    rfl
  · change reading (-1) 1 :: _ = _
    norm_num [reading, sure]
    rfl

theorem reading_illegal (x : Bool) (l : Bits) (n : ℕ) :
    readings (hardSoft (x :: x :: l)) (n + 1) = doubtful :: readings (hardSoft l) n := by
  cases x
  · change reading (-1) (-1) :: _ = _
    norm_num [reading, doubtful]
    rfl
  · change reading 1 1 :: _ = _
    norm_num [reading, doubtful]
    rfl

theorem readings_encode (bs : Bits) (rest : Bits) :
    readings (hardSoft (manchesterEncode bs ++ rest)) bs.length = bs.map sure := by
  induction bs with
  | nil => simp [readings]
  | cons b bs ih =>
      rw [manchesterEncode_cons, List.append_assoc, List.length_cons, reading_encodeBit, ih]
      rfl

/-- A wrong symbol leaves every reading but that of its pair. -/
theorem readings_wrong {bs : Bits} {t : ℕ} (ht : t < 2 * bs.length) (rest : Bits) :
    readings (hardSoft ((manchesterEncode bs).modify t (!·) ++ rest)) bs.length =
      (bs.map sure).set (t / 2) doubtful := by
  induction bs generalizing t with
  | nil => simp at ht
  | cons b bs ih =>
      rw [manchesterEncode_cons]
      obtain rfl | rfl | ⟨u, rfl⟩ : t = 0 ∨ t = 1 ∨ ∃ u, t = u + 2 := by
        by_cases h : 2 ≤ t
        · exact Or.inr (Or.inr ⟨t - 2, by omega⟩)
        · omega
      · have hpair : (encodeBit b ++ manchesterEncode bs).modify 0 (!·) ++ rest =
            b :: b :: (manchesterEncode bs ++ rest) := by
          cases b <;> rfl
        rw [hpair, List.length_cons, reading_illegal, readings_encode]
        rfl
      · have hpair : (encodeBit b ++ manchesterEncode bs).modify 1 (!·) ++ rest =
            (!b) :: (!b) :: (manchesterEncode bs ++ rest) := by
          cases b <;> rfl
        rw [hpair, List.length_cons, reading_illegal, readings_encode]
        rfl
      · have hpair : (encodeBit b ++ manchesterEncode bs).modify (u + 2) (!·) ++ rest =
            encodeBit b ++ ((manchesterEncode bs).modify u (!·) ++ rest) := by
          cases b <;> rfl
        have hhalf : (u + 2) / 2 = u / 2 + 1 := by omega
        rw [List.length_cons] at ht
        rw [hpair, List.length_cons, reading_encodeBit, ih (by omega), hhalf]
        rfl

def framesBits (fs : List (ℕ × Byte)) : Bits := (fs.map (fun f => frame f.1 f.2)).flatten

/-- Which logical bit the symbol at a position of the frames belongs to, if any. -/
def bitOf (j : ℕ) : Option ℕ :=
  if j % frameBits < 2 then none
  else some (j / frameBits * frameLogicalBits + (j % frameBits - 2) / 2)

/-- The readings with the pair of a wrong symbol in doubt. -/
def doubt (rs : List Reading) : Option ℕ → List Reading
  | none => rs
  | some q => rs.set q doubtful

theorem frameReadings_frame {l : List ℚ} {fs : ℕ} {rs : List Reading}
    (h : readings (l.drop 2) frameLogicalBits = rs) (hlen : rs.length = frameLogicalBits) :
    frameReadings l (fs + 1) = rs ++ frameReadings (l.drop frameBits) fs := by
  rw [frameReadings, h, if_neg (by omega)]

theorem hardSoft_drop (bits : Bits) (n : ℕ) : (hardSoft bits).drop n = hardSoft (bits.drop n) :=
  List.map_drop.symm

theorem framesBits_cons (f : ℕ × Byte) (fs : List (ℕ × Byte)) (rest : Bits) :
    framesBits (f :: fs) ++ rest = frame f.1 f.2 ++ (framesBits fs ++ rest) := by
  rw [framesBits, List.map_cons, List.flatten_cons, List.append_assoc]
  rfl

theorem frameReadings_clean (fs : List (ℕ × Byte)) (rest : Bits) :
    frameReadings (hardSoft (framesBits fs ++ rest)) fs.length =
      (fs.flatMap logicalBits).map sure := by
  induction fs with
  | nil => rfl
  | cons f fs ih =>
      have hhead : readings ((hardSoft (framesBits (f :: fs) ++ rest)).drop 2) frameLogicalBits =
          (logicalBits f).map sure := by
        rw [hardSoft_drop, framesBits_cons, ← length_logicalBits f]
        exact readings_encode (logicalBits f) (framesBits fs ++ rest)
      have htail : (hardSoft (framesBits (f :: fs) ++ rest)).drop frameBits =
          hardSoft (framesBits fs ++ rest) := by
        rw [hardSoft_drop, framesBits_cons, List.drop_left' (length_frame f.1 f.2)]
      rw [List.length_cons, frameReadings_frame hhead (by simp), htail, ih, List.flatMap_cons,
        List.map_append]

/-- A wrong symbol puts the pair it belongs to in doubt and no other. -/
theorem readings_frame_wrong {f : ℕ × Byte} {j : ℕ} (hj : j < frameBits) (rest : Bits) :
    readings ((hardSoft ((frame f.1 f.2).modify j (!·) ++ rest)).drop 2) frameLogicalBits =
      doubt ((logicalBits f).map sure) (bitOf j) := by
  have hframe : frame f.1 f.2 = true :: true :: manchesterEncode (logicalBits f) := rfl
  have hdiv : j / frameBits = 0 := Nat.div_eq_of_lt hj
  rw [bitOf, Nat.mod_eq_of_lt hj, hdiv, Nat.zero_mul, Nat.zero_add, hardSoft_drop, hframe]
  by_cases hmark : j < 2
  · have hclean : ((true :: true :: manchesterEncode (logicalBits f)).modify j (!·) ++ rest).drop 2 =
        manchesterEncode (logicalBits f) ++ rest := by
      interval_cases j <;> rfl
    rw [if_pos hmark, hclean, ← length_logicalBits f]
    exact readings_encode (logicalBits f) rest
  · obtain ⟨t, rfl⟩ := Nat.exists_eq_add_of_le (Nat.not_lt.mp hmark)
    have hshift : ((true :: true :: manchesterEncode (logicalBits f)).modify (2 + t) (!·) ++ rest).drop 2 =
        (manchesterEncode (logicalBits f)).modify t (!·) ++ rest := by
      rw [Nat.add_comm]
      rfl
    have ht : t < 2 * (logicalBits f).length := by
      simp only [frameBits] at hj
      simp only [length_logicalBits, frameLogicalBits, frameIndexBits, frameDataBits]
      omega
    rw [if_neg hmark, hshift, ← length_logicalBits f, readings_wrong ht, Nat.add_sub_cancel_left]
    rfl

theorem length_doubt (rs : List Reading) (q : Option ℕ) : (doubt rs q).length = rs.length := by
  cases q with
  | none => rfl
  | some q => exact List.length_set

theorem doubt_append_left {rs : List Reading} (ss : List Reading) {q : Option ℕ}
    (h : ∀ k ∈ q, k < rs.length) : doubt (rs ++ ss) q = doubt rs q ++ ss := by
  cases q with
  | none => rfl
  | some k => exact List.set_append_left k doubtful (h k rfl)

theorem doubt_append_right (rs ss : List Reading) (q : Option ℕ) :
    doubt (rs ++ ss) (q.map (rs.length + ·)) = rs ++ doubt ss q := by
  cases q with
  | none => rfl
  | some k =>
      refine (List.set_append_right _ doubtful (Nat.le_add_right _ k)).trans ?_
      rw [Nat.add_sub_cancel_left]
      rfl

theorem bitOf_lt {j : ℕ} (hj : j < frameBits) : ∀ k ∈ bitOf j, k < frameLogicalBits := by
  intro k hk
  rw [bitOf, Nat.mod_eq_of_lt hj, Nat.div_eq_of_lt hj] at hk
  split_ifs at hk with hmark
  · cases hk
  · have heq := Option.some.inj hk
    simp only [frameBits, frameLogicalBits, frameIndexBits, frameDataBits] at hj heq ⊢
    omega

theorem bitOf_add (j : ℕ) : bitOf (frameBits + j) = (bitOf j).map (frameLogicalBits + ·) := by
  have hmod : (frameBits + j) % frameBits = j % frameBits := Nat.add_mod_left _ _
  have hdiv : (frameBits + j) / frameBits = j / frameBits + 1 := by
    rw [Nat.add_comm]
    exact Nat.add_div_right j (by decide)
  rw [bitOf, bitOf, hmod, hdiv]
  split_ifs
  · rfl
  · rw [Option.map_some]
    congr 1
    ring

theorem frameReadings_wrong {fs : List (ℕ × Byte)} {j : ℕ} (hj : j < frameBits * fs.length)
    (rest : Bits) :
    frameReadings (hardSoft ((framesBits fs).modify j (!·) ++ rest)) fs.length =
      doubt ((fs.flatMap logicalBits).map sure) (bitOf j) := by
  induction fs generalizing j with
  | nil => simp at hj
  | cons f fs ih =>
      have hcons : framesBits (f :: fs) = frame f.1 f.2 ++ framesBits fs := rfl
      have hlen : ((logicalBits f).map sure).length = frameLogicalBits := by simp
      rw [hcons, modify_append, length_frame, List.length_cons, List.flatMap_cons, List.map_append]
      by_cases hfirst : j < frameBits
      · have hhead := readings_frame_wrong (f := f) hfirst (framesBits fs ++ rest)
        have htail : (hardSoft ((frame f.1 f.2).modify j (!·) ++ (framesBits fs ++ rest))).drop
            frameBits = hardSoft (framesBits fs ++ rest) := by
          rw [hardSoft_drop, List.drop_left' (by simp)]
        rw [if_pos hfirst, List.append_assoc, frameReadings_frame hhead (by rw [length_doubt, hlen]),
          htail, frameReadings_clean, doubt_append_left _ (by rw [hlen]; exact bitOf_lt hfirst)]
      · obtain ⟨k, rfl⟩ := Nat.exists_eq_add_of_le (Nat.not_lt.mp hfirst)
        have hk : k < frameBits * fs.length := by
          rw [List.length_cons, Nat.mul_succ] at hj
          omega
        have hhead : readings ((hardSoft (frame f.1 f.2 ++ ((framesBits fs).modify k (!·) ++
            rest))).drop 2) frameLogicalBits = (logicalBits f).map sure := by
          rw [hardSoft_drop, ← length_logicalBits f]
          exact readings_encode (logicalBits f) _
        have htail : (hardSoft (frame f.1 f.2 ++ ((framesBits fs).modify k (!·) ++ rest))).drop
            frameBits = hardSoft ((framesBits fs).modify k (!·) ++ rest) := by
          rw [hardSoft_drop, List.drop_left' (length_frame f.1 f.2)]
        rw [if_neg hfirst, Nat.add_sub_cancel_left, List.append_assoc,
          frameReadings_frame hhead hlen, htail, ih hk, bitOf_add, ← hlen, doubt_append_right]

theorem take_drop_set {α : Type*} {l : List α} {q a w : ℕ} (x : α) (h : q < a ∨ a + w ≤ q) :
    ((l.set q x).drop a).take w = (l.drop a).take w := by
  apply List.ext_getElem?
  intro i
  rw [List.getElem?_take, List.getElem?_take]
  split_ifs with hi
  · rw [List.getElem?_drop, List.getElem?_drop, List.getElem?_set_ne (by omega)]
  · rfl

theorem map_range_set {α : Type*} {n k : ℕ} {F G : ℕ → α} (h : ∀ f, f ≠ k → G f = F f) :
    (List.range n).map G = ((List.range n).map F).set k (G k) := by
  apply List.ext_getElem?
  intro i
  rw [List.getElem?_set, List.length_map, List.getElem?_map, List.getElem?_map]
  by_cases hi : k = i
  · subst hi
    by_cases hk : k < n
    · simp [hk]
    · simp [hk]
  · rw [if_neg hi]
    cases hget : (List.range n)[i]? with
    | none => rfl
    | some f =>
        obtain ⟨hlt, rfl⟩ := List.getElem?_eq_some_iff.mp hget
        have hne : (List.range n)[i] ≠ k := by
          rw [List.getElem_range]
          exact fun heq => hi heq.symm
        simp only [Option.map_some, h _ hne]

theorem bytesFrom_set_counter {q : ℕ} (hq : q % frameLogicalBits < frameIndexBits)
    (values : List Bool) (x : Bool) (nframes : ℕ) :
    bytesFrom (values.set q x) nframes = bytesFrom values nframes := by
  apply List.map_congr_left
  intro f _
  rw [take_drop_set x]
  simp only [frameLogicalBits, frameIndexBits, frameDataBits] at hq ⊢
  omega

theorem countersFrom_set_data {q : ℕ} (hq : frameIndexBits ≤ q % frameLogicalBits)
    (values : List Bool) (x : Bool) (nframes : ℕ) :
    countersFrom (values.set q x) nframes = countersFrom values nframes := by
  apply List.map_congr_left
  intro f _
  rw [take_drop_set x]
  simp only [frameLogicalBits, frameIndexBits, frameDataBits] at hq ⊢
  omega

theorem countersFrom_set (values : List Bool) (q : ℕ) (x : Bool) (nframes : ℕ) :
    ∃ c, countersFrom (values.set q x) nframes =
      (countersFrom values nframes).set (q / frameLogicalBits) c := by
  refine ⟨_, map_range_set fun f hf => ?_⟩
  rw [take_drop_set x]
  simp only [frameLogicalBits, frameIndexBits, frameDataBits] at hf ⊢
  omega

theorem countP_set_le (l m : List ℕ) (k c : ℕ) :
    ((l.set k c).zip m).countP (fun x => x.1 != x.2) ≤ (l.zip m).countP (fun x => x.1 != x.2) + 1 := by
  induction l generalizing k m with
  | nil => simp
  | cons a l ih =>
      cases m with
      | nil => simp
      | cons b m =>
          cases k with
          | zero =>
              simp only [List.set_cons_zero, List.zip_cons_cons, List.countP_cons]
              split_ifs <;> omega
          | succ k =>
              have hrest := ih m k
              simp only [List.set_cons_succ, List.zip_cons_cons, List.countP_cons]
              omega

theorem indexErrors_set_le (values : List Bool) (q : ℕ) (x : Bool) (nframes : ℕ) (extended : Bool) :
    indexErrors (values.set q x) nframes extended ≤ indexErrors values nframes extended + 1 := by
  obtain ⟨c, hc⟩ := countersFrom_set values q x nframes
  rw [indexErrors, hc]
  exact countP_set_le _ _ _ c

theorem getLsbD_byte {values : List Bool} {q : ℕ} (hq : frameIndexBits ≤ q % frameLogicalBits) :
    (BitVec.ofNat 8 (ofLsbBits ((values.drop (q / frameLogicalBits * frameLogicalBits +
      frameIndexBits)).take frameDataBits))).getLsbD (q % frameLogicalBits - frameIndexBits) =
      values.getD q false := by
  have hmod := Nat.mod_lt q (show frameLogicalBits > 0 by decide)
  have hdiv := Nat.div_add_mod q frameLogicalBits
  simp only [frameLogicalBits, frameIndexBits, frameDataBits] at hq hmod hdiv ⊢
  have hplace : q / (5 + 8) * (5 + 8) + 5 + (q % (5 + 8) - 5) = q := by omega
  have hbit : q % (5 + 8) - 5 < 8 := by omega
  rw [BitVec.getLsbD_ofNat, testBit_ofLsbBits, List.getD_eq_getElem?_getD, List.getElem?_take,
    if_pos hbit, List.getElem?_drop, hplace, List.getD_eq_getElem?_getD]
  simp [hbit]

theorem bytesFrom_set_data {values : List Bool} {q : ℕ} {x : Bool} {nframes : ℕ}
    (hq : frameIndexBits ≤ q % frameLogicalBits) (hlen : values.length = nframes * frameLogicalBits)
    (hx : values[q]? = some (!x)) :
    ∃ b, bytesFrom (values.set q x) nframes = (bytesFrom values nframes).set (q / frameLogicalBits) b ∧
      q / frameLogicalBits < nframes ∧
      (bytesFrom values nframes)[q / frameLogicalBits]? ≠ some b := by
  obtain ⟨hlt, -⟩ := List.getElem?_eq_some_iff.mp hx
  have hframe : q / frameLogicalBits < nframes := by
    rw [hlen] at hlt
    exact Nat.div_lt_of_lt_mul (by rwa [Nat.mul_comm])
  have hset : bytesFrom (values.set q x) nframes =
      (bytesFrom values nframes).set (q / frameLogicalBits) (BitVec.ofNat 8 (ofLsbBits
        (((values.set q x).drop (q / frameLogicalBits * frameLogicalBits + frameIndexBits)).take
          frameDataBits))) := by
    refine map_range_set fun f hf => ?_
    rw [take_drop_set x]
    simp only [frameLogicalBits, frameIndexBits, frameDataBits] at hf ⊢
    omega
  refine ⟨_, hset, hframe, ?_⟩
  rw [bytesFrom, List.getElem?_map, List.getElem?_range hframe, Option.map_some]
  intro heq
  have hbits := congrArg (BitVec.getLsbD · (q % frameLogicalBits - frameIndexBits))
    (Option.some.inj heq)
  simp only [getLsbD_byte hq, List.getD_eq_getElem?_getD, hx, List.getElem?_set_self hlt] at hbits
  cases x <;> cases hbits

/-- What one step of the CRC does once the byte is in: its table leaves the low half. -/
def mix (x : Byte) : Byte := x ^^^ crcTable.getD (x &&& 0x0F#8).toNat 0

theorem mix_mix (x : Byte) : mix (mix x) = x := by
  revert x
  decide

theorem xor_of_crcStep {r s a b : Byte} (h : crcStep r a = crcStep s b) : r ^^^ a = s ^^^ b := by
  have hmix : mix (mix (r ^^^ a)) = mix (mix (s ^^^ b)) := congrArg mix h
  rwa [mix_mix, mix_mix] at hmix

theorem foldl_crcStep_inj {r s : Byte} {l : List Byte}
    (h : l.foldl crcStep r = l.foldl crcStep s) : r = s := by
  induction l generalizing r s with
  | nil => exact h
  | cons a l ih => exact (BitVec.xor_left_inj a).mp (xor_of_crcStep (ih h))

theorem eq_of_foldl_crcStep_set {l : List Byte} {f : ℕ} {b r : Byte} (hf : f < l.length)
    (h : (l.set f b).foldl crcStep r = l.foldl crcStep r) : l[f]? = some b := by
  induction l generalizing f r with
  | nil => simp at hf
  | cons a l ih =>
      cases f with
      | zero =>
          have hxor := xor_of_crcStep (foldl_crcStep_inj h)
          have hab : b = a := (BitVec.xor_right_inj r).mp hxor
          rw [hab]
          rfl
      | succ f => exact ih (by simpa using hf) h

def crcPlace (extended : Bool) : ℕ := if extended then extCrcIndex else stdCrcIndex

theorem pktCrc_eq {data : List Byte} {extended : Bool}
    (hkind : isExtended (firstByte data) = extended) :
    pktCrc data = (data.take (crcPlace extended)).foldl crcStep 0 := by
  rw [← hkind]
  rfl

theorem firstByte_set {data : List Byte} {f : ℕ} (hf : 0 < f) (b : Byte) :
    firstByte (data.set f b) = firstByte data := by
  cases data with
  | nil => rfl
  | cons a data =>
      obtain ⟨f, rfl⟩ := Nat.exists_eq_succ_of_ne_zero (Nat.ne_of_gt hf)
      rfl

theorem crcOk_set_after {data : List Byte} {extended : Bool} {f : ℕ} (b : Byte)
    (h : crcOk data extended = true) (hkind : isExtended (firstByte data) = extended)
    (hf : crcPlace extended < f) : crcOk (data.set f b) extended = true := by
  have hkind' : isExtended (firstByte (data.set f b)) = extended := by
    rw [firstByte_set (Nat.zero_lt_of_lt hf), hkind]
  have hcrc : pktCrc (data.set f b) = pktCrc data := by
    rw [pktCrc_eq hkind, pktCrc_eq hkind', List.take_set_of_le hf.le]
  have hget : ∀ i < f, (data.set f b).getD i 0 = data.getD i 0 := by
    intro i hi
    rw [List.getD_eq_getElem?_getD, List.getD_eq_getElem?_getD, List.getElem?_set_ne (by omega)]
  cases extended with
  | false =>
      have hplace : stdCrcIndex < f := hf
      rw [crcOk] at h ⊢
      simpa only [Bool.false_eq_true, if_false, List.length_set, hcrc, hget _ hplace] using h
  | true =>
      have hplace : extCrcIndex < f := hf
      have hdata : 22 < f := by
        simp only [extCrcIndex] at hplace
        omega
      have hext : extCrc (data.set f b) = extCrc data := by
        rw [extCrc, extCrc, extDataCrcIndex, List.take_set_of_le hdata.le]
      rw [crcOk] at h ⊢
      simpa only [if_true, List.length_set, hcrc, hext, hget _ hplace, hget _ hdata] using h

theorem crcOk_set_upTo {data : List Byte} {extended : Bool} {f : ℕ} {b : Byte}
    (h : crcOk data extended = true) (hkind : isExtended (firstByte data) = extended)
    (hkind' : isExtended (firstByte (data.set f b)) = extended) (hf : f ≤ crcPlace extended)
    (hne : data[f]? ≠ some b) : crcOk (data.set f b) extended = false := by
  by_contra hok
  rw [Bool.not_eq_false] at hok
  obtain ⟨hlen, hbyte, -⟩ := crcOk_spec h
  obtain ⟨-, hbyte', -⟩ := crcOk_spec hok
  change crcPlace extended < data.length at hlen
  change data.getD (crcPlace extended) 0 = _ at hbyte
  change (data.set f b).getD (crcPlace extended) 0 = _ at hbyte'
  rw [pktCrc_eq hkind, List.getD_eq_getElem?_getD] at hbyte
  rw [pktCrc_eq hkind', List.getD_eq_getElem?_getD] at hbyte'
  rcases hf.lt_or_eq with hlt | rfl
  · rw [List.getElem?_set_ne (by omega), hbyte, List.take_set] at hbyte'
    have hsame := eq_of_foldl_crcStep_set (by simp; omega) hbyte'.symm
    rw [List.getElem?_take, if_pos hlt] at hsame
    exact hne hsame
  · rw [List.getElem?_set_self hlen, List.take_set_of_le le_rfl, ← hbyte,
      List.getElem?_eq_getElem hlen] at hbyte'
    apply hne
    rw [List.getElem?_eq_getElem hlen]
    exact congrArg some hbyte'.symm

def confExcept (size q : ℕ) : List ℚ := (List.replicate size (2 : ℚ)).set q 0

theorem getD_confExcept {size p : ℕ} (q : ℕ) (hp : p < size) :
    (confExcept size q).getD p 0 = if p = q then 0 else 2 := by
  rw [confExcept, List.getD_eq_getElem?_getD, List.getElem?_set, List.length_replicate]
  by_cases h : q = p
  · simp [h, hp]
  · simp [h, Ne.symm h, hp]

theorem median_one_zero {l : List ℚ} {m : ℕ} (hperm : l.Perm (0 :: List.replicate m 2))
    (hm : 2 ≤ m) : median l = 2 := by
  have hsorted : (0 :: List.replicate m (2 : ℚ)).Pairwise (· ≤ ·) := by
    refine List.pairwise_cons.mpr ⟨?_, ?_⟩
    · intro x hx
      rw [List.eq_of_mem_replicate hx]
      norm_num
    · exact List.pairwise_replicate.mpr (Or.inr le_rfl)
  have hget : ∀ i, 0 < i → i ≤ m → (0 :: List.replicate m (2 : ℚ)).getD i 0 = 2 := by
    intro i hi him
    obtain ⟨i, rfl⟩ := Nat.exists_eq_succ_of_ne_zero (Nat.ne_of_gt hi)
    have hlt : i < m := him
    simp [List.getD_eq_getElem?_getD, hlt]
  rw [median, sortOn_of_perm hperm hsorted]
  simp only [List.length_cons, List.length_replicate]
  split_ifs with hodd
  · exact hget _ (by omega) (by omega)
  · rw [hget _ (by omega) (by omega), hget _ (by omega) (by omega)]
    norm_num

/-- Of the data positions one has no confidence, and the others have it all. -/
theorem dataPositions_split {nframes size q : ℕ} (hq : q ∈ dataPositions nframes size) :
    ∃ u v, dataPositions nframes size = u ++ q :: v ∧
      (∀ p ∈ u ++ v, (confExcept size q).getD p 0 = 2) ∧ (confExcept size q).getD q 0 = 0 := by
  have hsize : ∀ p ∈ dataPositions nframes size, p < size := fun p hp => (mem_dataPositions hp).2
  obtain ⟨u, v, huv⟩ := List.append_of_mem hq
  have hnodup := dataPositions_nodup nframes size
  rw [huv, List.nodup_middle, List.nodup_cons, List.mem_append, not_or] at hnodup
  obtain ⟨⟨hu, hv⟩, -⟩ := hnodup
  refine ⟨u, v, huv, ?_, by rw [getD_confExcept q (hsize q hq), if_pos rfl]⟩
  intro p hp
  have hmem : p ∈ dataPositions nframes size := by
    rw [huv]
    simp only [List.mem_append, List.mem_cons] at hp ⊢
    exact hp.imp_right Or.inr
  have hne : p ≠ q := by
    rintro rfl
    exact (List.mem_append.mp hp).elim hu hv
  rw [getD_confExcept q (hsize p hmem), if_neg hne]

theorem median_confExcept {nframes size q : ℕ} (hq : q ∈ dataPositions nframes size)
    (hcount : 3 ≤ (dataPositions nframes size).length) :
    median ((dataPositions nframes size).map (fun p => (confExcept size q).getD p 0)) = 2 := by
  obtain ⟨u, v, huv, hother, hown⟩ := dataPositions_split hq
  have hrest : (u ++ v).map (fun p => (confExcept size q).getD p 0) =
      List.replicate (u ++ v).length 2 := by
    apply List.eq_replicate_iff.mpr
    refine ⟨by simp, ?_⟩
    intro x hx
    obtain ⟨p, hp, rfl⟩ := List.mem_map.mp hx
    exact hother p hp
  have hperm : ((dataPositions nframes size).map (fun p => (confExcept size q).getD p 0)).Perm
      (0 :: List.replicate (u ++ v).length 2) := by
    rw [huv, ← hrest]
    refine (List.perm_middle.map _).trans (List.Perm.of_eq ?_)
    rw [List.map_cons, hown]
  apply median_one_zero hperm
  rw [huv] at hcount
  simp only [List.length_append, List.length_cons] at hcount ⊢
  omega

theorem upTo_singleton {q : ℕ} {candidates : ℤ} (hcand : 1 ≤ candidates) :
    upTo [q] candidates = [q] := by
  obtain ⟨n, rfl⟩ := Int.eq_ofNat_of_zero_le (show 0 ≤ candidates by omega)
  obtain ⟨n, rfl⟩ := Nat.exists_eq_succ_of_ne_zero (show n ≠ 0 by omega)
  have hzero : position [q].length 0 = 0 := by simp [position]
  rw [upTo, slice, position_natCast, hzero, Int.toNat_natCast, List.take_of_length_le (by simp)]
  rfl

/-- The pair in doubt is the only suspect. -/
theorem suspects_single {nframes size q : ℕ} {candidates : ℤ}
    (hq : q ∈ dataPositions nframes size) (hcount : 3 ≤ (dataPositions nframes size).length)
    (hcand : 1 ≤ candidates) : suspects (confExcept size q) nframes size candidates = [q] := by
  obtain ⟨u, v, huv, hother, hown⟩ := dataPositions_split hq
  have hfilter : (dataPositions nframes size).filter
      (fun p => decide ((confExcept size q).getD p 0 ≤ suspectRatio * 2)) = [q] := by
    have hout : ∀ p ∈ u ++ v, ¬ decide ((confExcept size q).getD p 0 ≤ suspectRatio * 2) = true := by
      intro p hp
      rw [hother p hp]
      norm_num [suspectRatio]
    have hin : decide ((confExcept size q).getD q 0 ≤ suspectRatio * 2) = true := by
      rw [hown]
      norm_num [suspectRatio]
    rw [huv, List.filter_append, List.filter_cons, if_pos hin,
      List.filter_eq_nil_iff.mpr fun p hp => hout p (List.mem_append_left v hp),
      List.filter_eq_nil_iff.mpr fun p hp => hout p (List.mem_append_right u hp), List.nil_append]
  rw [suspects]
  simp only [median_confExcept hq hcount, show ¬ ((2 : ℚ) = 0) by norm_num, if_false, hfilter]
  exact upTo_singleton hcand

theorem search_single {values : List Bool} {nframes q : ℕ} {extended : Bool}
    {max_flips candidates : ℤ} (hq : q ∈ dataPositions nframes values.length)
    (hcount : 3 ≤ (dataPositions nframes values.length).length) (hflips : 1 ≤ max_flips)
    (hcand : 1 ≤ candidates) (hpass : passes nframes extended (flipAt values [q]) = true) :
    search values (confExcept values.length q) nframes extended max_flips candidates = some [q] := by
  obtain ⟨k, hk⟩ := Nat.exists_eq_succ_of_ne_zero (show max_flips.toNat ≠ 0 by omega)
  rw [search, suspects_single hq hcount hcand, hk, List.range_succ_eq_map, List.flatMap_cons]
  have hone : combinations [q] (0 + 1) = [[q]] := rfl
  rw [hone, List.singleton_append]
  exact List.find?_cons_of_pos hpass

def readAs (values : List Bool) : Option ℕ → List Bool
  | none => values
  | some q => values.set q false

theorem values_doubt (values : List Bool) (q : Option ℕ) :
    (doubt (values.map sure) q).map Reading.value = readAs values q := by
  have hclean : (values.map sure).map Reading.value = values := by
    rw [List.map_map]
    exact List.map_id values
  cases q with
  | none => exact hclean
  | some q =>
      rw [doubt, List.map_set, hclean]
      rfl

theorem conf_doubt (values : List Bool) (q : ℕ) :
    (doubt (values.map sure) (some q)).map Reading.conf = confExcept values.length q := by
  have hclean : (values.map sure).map Reading.conf = List.replicate values.length 2 := by
    rw [List.map_map]
    exact List.map_const' ..
  rw [doubt, List.map_set, hclean]
  rfl

theorem readAs_of_zero {values : List Bool} {q : ℕ} (h : values[q]? ≠ some true) :
    readAs values (some q) = values := by
  rw [readAs]
  apply List.ext_getElem?
  intro i
  rw [List.getElem?_set]
  split_ifs with hi hq
  · subst hi
    rw [List.getElem?_eq_getElem hq] at h ⊢
    cases hv : values[q] with
    | false => rfl
    | true => rw [hv] at h; exact absurd rfl h
  · subst hi
    rw [List.getElem?_eq_none (Nat.not_lt.mp hq)]
  · rfl

structure Clean (values : List Bool) (nframes : ℕ) (extended : Bool) : Prop where
  length : values.length = nframes * frameLogicalBits
  counters : indexErrors values nframes extended = 0
  crc : crcOk (bytesFrom values nframes) extended = true
  kind : values.getD extPosition false = extended

theorem Clean.nframes_pos {values : List Bool} {nframes : ℕ} {extended : Bool}
    (h : Clean values nframes extended) : 0 < nframes := by
  obtain ⟨hlen, -⟩ := crcOk_spec h.crc
  rw [length_bytesFrom] at hlen
  omega

theorem isExtended_readAs {values : List Bool} {nframes : ℕ} {extended : Bool}
    (h : Clean values nframes extended) {q : Option ℕ}
    (hext : extended = true → q ≠ some extPosition) {n : ℕ} (hn : 0 < n) :
    isExtended (firstByte (bytesFrom (readAs values q) n)) = extended := by
  rw [isExtended_bytesFrom _ hn]
  cases q with
  | none => exact h.kind
  | some q =>
      have hkind := h.kind
      rw [readAs]
      rw [List.getD_eq_getElem?_getD] at hkind ⊢
      by_cases hq : q = extPosition
      · subst hq
        cases extended with
        | true => exact absurd rfl (hext rfl)
        | false =>
            rw [List.getElem?_set, if_pos rfl]
            split_ifs <;> rfl
      · rw [List.getElem?_set_ne hq, hkind]

theorem length_dataPositions (nframes : ℕ) :
    (dataPositions nframes (nframes * frameLogicalBits)).length = nframes * frameDataBits := by
  rw [dataPositions, List.filter_eq_self.mpr]
  · simp [List.length_flatMap]
  · intro p hp
    obtain ⟨f, hf, hp⟩ := List.mem_flatMap.mp hp
    obtain ⟨b, hb, rfl⟩ := List.mem_map.mp hp
    rw [List.mem_range] at hf hb
    have hnext : (f + 1) * frameLogicalBits ≤ nframes * frameLogicalBits :=
      Nat.mul_le_mul_right _ hf
    simp only [frameLogicalBits, frameIndexBits, frameDataBits] at hb hnext ⊢
    exact decide_eq_true (by omega)

theorem mem_dataPositions_of_data {nframes q : ℕ} (hq : frameIndexBits ≤ q % frameLogicalBits)
    (hlt : q < nframes * frameLogicalBits) :
    q ∈ dataPositions nframes (nframes * frameLogicalBits) := by
  have hmod := Nat.mod_lt q (show frameLogicalBits > 0 by decide)
  have hdiv := Nat.div_add_mod' q frameLogicalBits
  have hframe : q / frameLogicalBits < nframes := Nat.div_lt_of_lt_mul (by rwa [Nat.mul_comm])
  rw [dataPositions, List.mem_filter, List.mem_flatMap]
  refine ⟨⟨q / frameLogicalBits, List.mem_range.mpr hframe, List.mem_map.mpr
    ⟨q % frameLogicalBits - frameIndexBits, List.mem_range.mpr ?_, ?_⟩⟩, decide_eq_true hlt⟩
  · simp only [frameLogicalBits, frameIndexBits, frameDataBits] at hmod ⊢
    omega
  · omega

/-- The options of the callers: at least one flip of at least one candidate, one counter
error tolerated. -/
structure CanRepair (o : RecoverOptions) : Prop where
  flips : 1 ≤ o.max_flips
  candidates : 1 ≤ o.candidates
  counters : o.max_index_errors = 1
  repair : o.repair = true

/-- Recovery settles on the checked bytes of `data` with at most one flip. -/
def SettlesOn (data : List Byte) (extended : Bool) (answer : Option (List Byte × ℕ × ℕ)) : Prop :=
  ∃ found corrected bad, answer = some (found, corrected, bad) ∧
    found.take (crcPlace extended + 1) = data.take (crcPlace extended + 1) ∧ corrected ≤ 1

theorem settle_of_crcOk {values : List Bool} {nframes : ℕ} {extended : Bool} {o : RecoverOptions}
    (conf : List ℚ) (ho : CanRepair o) {data : List Byte}
    (hbad : indexErrors values nframes extended ≤ 1)
    (hcrc : crcOk (bytesFrom values nframes) extended = true)
    (hdata : (bytesFrom values nframes).take (crcPlace extended + 1) =
      data.take (crcPlace extended + 1)) :
    SettlesOn data extended (settle values conf nframes extended o) := by
  have hmax : ¬ o.max_index_errors < (indexErrors values nframes extended : ℤ) := by
    rw [ho.counters]
    omega
  rw [settle, if_neg hmax, if_pos hcrc]
  exact ⟨_, 0, _, rfl, hdata, Nat.zero_le 1⟩

theorem flipAt_set {values : List Bool} {q : ℕ} (hq : values[q]? = some true) :
    flipAt (values.set q false) [q] = values := by
  change (values.set q false).modify q (!·) = values
  apply List.ext_getElem?
  intro i
  rw [List.getElem?_modify]
  by_cases hi : q = i
  · subst hi
    obtain ⟨hlt, hget⟩ := List.getElem?_eq_some_iff.mp hq
    simp [hlt, hget]
  · simp [hi, List.getElem?_set_ne hi]

/-- A wrong bit under the CRC is the first the search flips. -/
theorem settle_of_search {values : List Bool} {nframes q : ℕ} {extended : Bool}
    {o : RecoverOptions} (h : Clean values nframes extended) (ho : CanRepair o)
    (hq : frameIndexBits ≤ q % frameLogicalBits) (hone : values[q]? = some true)
    (hcrc : crcOk (bytesFrom (values.set q false) nframes) extended = false) :
    SettlesOn (bytesFrom values nframes) extended
      (settle (values.set q false) (confExcept values.length q) nframes extended o) := by
  obtain ⟨hlt, -⟩ := List.getElem?_eq_some_iff.mp hone
  have hpos := h.nframes_pos
  have hcount : 3 ≤ (dataPositions nframes (values.set q false).length).length := by
    rw [List.length_set, h.length, length_dataPositions, frameDataBits]
    omega
  have hmem : q ∈ dataPositions nframes (values.set q false).length := by
    rw [List.length_set, h.length]
    exact mem_dataPositions_of_data hq (by rwa [h.length] at hlt)
  have hpass : passes nframes extended (flipAt (values.set q false) [q]) = true := by
    rw [flipAt_set hone, passes, h.crc, h.counters]
    rfl
  have hsearch := search_single hmem hcount ho.flips ho.candidates hpass
  rw [List.length_set] at hsearch
  have hbad : ¬ o.max_index_errors < (indexErrors (values.set q false) nframes extended : ℤ) := by
    rw [ho.counters, indexErrors, countersFrom_set_data hq, ← indexErrors, h.counters]
    decide
  rw [settle, if_neg hbad, if_neg (by rw [hcrc]; decide), if_pos ho.repair, repair, hsearch]
  refine ⟨_, _, _, rfl, ?_, le_rfl⟩
  simp only [flipAt_set hone]

/-- Whatever bit is in doubt, recovery settles on the bytes. -/
theorem settle_doubt {values : List Bool} {nframes : ℕ} {extended : Bool} {o : RecoverOptions}
    (h : Clean values nframes extended) (ho : CanRepair o) {q : Option ℕ}
    (hext : extended = true → q ≠ some extPosition) :
    SettlesOn (bytesFrom values nframes) extended
      (settle ((doubt (values.map sure) q).map Reading.value)
        ((doubt (values.map sure) q).map Reading.conf) nframes extended o) := by
  rw [values_doubt]
  have hsame := fun conf => settle_of_crcOk conf ho (h.counters.le.trans zero_le_one) h.crc rfl
  cases q with
  | none => exact hsame _
  | some q =>
      by_cases hone : values[q]? = some true
      · by_cases hcounter : q % frameLogicalBits < frameIndexBits
        · have hbad := indexErrors_set_le values q false nframes extended
          rw [h.counters] at hbad
          have hdata := bytesFrom_set_counter hcounter values false nframes
          exact settle_of_crcOk _ ho hbad (by rw [readAs, hdata, h.crc]) (by rw [readAs, hdata])
        · have hq := Nat.not_lt.mp hcounter
          obtain ⟨b, hdata, hframe, hne⟩ := bytesFrom_set_data (x := false) hq h.length hone
          have hkind : isExtended (firstByte (bytesFrom values nframes)) = extended := by
            rw [isExtended_bytesFrom _ h.nframes_pos, h.kind]
          have hkind' := isExtended_readAs h hext h.nframes_pos
          by_cases hplace : crcPlace extended < q / frameLogicalBits
          · have hbad : indexErrors (values.set q false) nframes extended ≤ 1 := by
              rw [indexErrors, countersFrom_set_data hq, ← indexErrors, h.counters]
              exact zero_le_one
            refine settle_of_crcOk _ ho hbad ?_ ?_
            · rw [readAs, hdata]
              exact crcOk_set_after b h.crc hkind hplace
            · rw [readAs, hdata, List.take_set_of_le hplace]
          · rw [readAs, hdata] at hkind'
            have hcrc := crcOk_set_upTo h.crc hkind hkind' (Nat.not_lt.mp hplace) hne
            rw [← hdata] at hcrc
            rw [conf_doubt]
            exact settle_of_search h ho hq hone hcrc
      · rw [readAs_of_zero hone]
        exact hsame _

theorem clean_frames {p : Packet} (h : p.Valid) :
    Clean ((indexedFrames p).flatMap logicalBits) p.data.length p.extended ∧
      bytesFrom ((indexedFrames p).flatMap logicalBits) p.data.length = p.data := by
  have hsnd := indexedFrames_snd h.fits
  have hfst : (indexedFrames p).map Prod.fst = expectedIndexes p.extended := by
    rw [indexedFrames_fst, h.full, List.take_of_length_le (by simp)]
  have hcount : (indexedFrames p).length = p.data.length := by rw [← hsnd, List.length_map]
  obtain ⟨hsize, hbytes, hcounters⟩ := values_of_frames hfst hsnd
  rw [hcount] at hsize hbytes hcounters
  refine ⟨⟨hsize, hcounters, ?_, ?_⟩, hbytes⟩
  · rw [hbytes]
    exact crcOk_of_crc h.crc h.extCrc
  · have hpos : 0 < p.data.length := List.length_pos_of_ne_nil p.data_ne
    rw [← isExtended_bytesFrom _ hpos, hbytes]
    rfl

theorem readPacketAt_of_frameReadings {sym : List ℚ} {pos : ℕ} {extended : Bool}
    {all : List Reading}
    (hall : frameReadings (sym.drop (pos + markerOffset)) (fullLen extended) = all)
    (hne : all ≠ [])
    (hkind : isExtended (firstByte (bytesFrom (all.map Reading.value) 1)) = extended) :
    readPacketAt sym pos = some (extended, all) := by
  obtain ⟨n, hn⟩ : ∃ n, fullLen extended = n + 1 := by cases extended <;> exact ⟨_, rfl⟩
  have hframes := hall
  rw [hn, frameReadings] at hframes
  split_ifs at hframes with hshort
  · exact absurd hframes.symm hne
  · have hhead : isExtended (firstByte (bytesFrom
        ((readings ((sym.drop (pos + markerOffset)).drop 2) frameLogicalBits).map Reading.value)
          1)) = extended := by
      rw [← hframes, isExtended_bytesFrom _ Nat.one_pos, List.map_append,
        List.getD_append _ _ _ _ ?_] at hkind
      · rw [isExtended_bytesFrom _ Nat.one_pos, hkind]
      · simp only [List.length_map, frameLogicalBits, frameIndexBits, frameDataBits,
          extPosition] at hshort ⊢
        omega
    rw [readPacketAt]
    simp only [if_neg hshort, hhead]
    congr 2

theorem drop_wrong {p : Packet} (h : p.Valid) (pre rest : Bits) (j : ℕ) :
    (pre ++ (p.messageBits.modify (markerOffset + j) (!·) ++ rest)).drop
      (pre.length + markerOffset) = (framesBits (indexedFrames p)).modify j (!·) ++ rest := by
  have hbits : p.messageBits = (manchesterEncode preamble).drop 15 ++ framesBits (indexedFrames p) := by
    rw [Packet.messageBits_eq h.fits, canonicalFrames_eq]
    rfl
  have hpreamble : ((manchesterEncode preamble).drop 15).length = markerOffset := rfl
  rw [hbits, modify_append, hpreamble, if_neg (by omega), Nat.add_sub_cancel_left,
    ← List.drop_drop, List.drop_left, List.append_assoc, List.drop_left' hpreamble]

/-- A wrong symbol outside the symbols of the EXT bit leaves the layout of the packet. -/
theorem bitOf_ne_ext {j : ℕ} (h25 : markerOffset + j ≠ 25) (h26 : markerOffset + j ≠ 26) :
    bitOf j ≠ some extPosition := by
  intro heq
  rw [bitOf] at heq
  split_ifs at heq with hmark
  have hplace := Option.some.inj heq
  simp only [frameBits, frameLogicalBits, frameIndexBits, frameDataBits, extPosition,
    markerOffset] at hmark hplace h25 h26
  omega

theorem length_indexedFrames {p : Packet} (h : p.Valid) :
    (indexedFrames p).length = p.data.length := by
  rw [← List.length_map Prod.snd, indexedFrames_snd h.fits]

/-- What is read behind the header: the packet's own bits, the wrong one in doubt. -/
theorem readPacketAt_wrong {p : Packet} (h : p.Valid) (pre rest : Bits) {j : ℕ}
    (hlast : markerOffset + j < p.messageBits.length)
    (hbit : p.extended = true → bitOf j ≠ some extPosition) :
    readPacketAt (hardSoft (pre ++ (p.messageBits.modify (markerOffset + j) (!·) ++ rest)))
      pre.length =
        some (p.extended, doubt (((indexedFrames p).flatMap logicalBits).map sure) (bitOf j)) := by
  obtain ⟨hclean, -⟩ := clean_frames h
  have hcount := length_indexedFrames h
  have hj : j < frameBits * (indexedFrames p).length := by
    rw [Packet.length_messageBits h.fits] at hlast
    rw [hcount]
    omega
  have hall := frameReadings_wrong hj rest
  rw [hcount] at hall
  apply readPacketAt_of_frameReadings
  · rw [hardSoft_drop, drop_wrong h, ← h.full]
    exact hall
  · apply List.ne_nil_of_length_pos
    rw [length_doubt, List.length_map, hclean.length]
    exact Nat.mul_pos hclean.nframes_pos (by decide)
  · rw [values_doubt]
    exact isExtended_readAs hclean hbit Nat.one_pos

theorem firstByte_of_take {a b : List Byte} {n : ℕ} (hb : b ≠ [])
    (h : a.take (n + 1) = b.take (n + 1)) : a ≠ [] ∧ firstByte a = firstByte b := by
  cases b with
  | nil => exact absurd rfl hb
  | cons y b =>
      cases a with
      | nil => cases h
      | cons x a =>
          rw [List.take_succ_cons, List.take_succ_cons] at h
          exact ⟨List.cons_ne_nil x a, (List.cons.inj h).1⟩

/-- One wrong symbol behind the start header of a valid packet, outside the EXT bit of an
extended one, leaves every byte up to the packet CRC as it was sent. -/
theorem recoverAt_oneWrongSymbol {p : Packet} (h : p.Valid) (pre rest : Bits) {i : ℕ}
    (hheader : startHeader.length ≤ i) (hlast : i < p.messageBits.length)
    (hext : p.extended = true → i ≠ 25 ∧ i ≠ 26) {max_flips candidates : ℤ}
    (hflips : 1 ≤ max_flips) (hcand : 1 ≤ candidates) (ts : Option Time) :
    ∃ r, recoverAt (pre ++ (p.messageBits.modify i (!·) ++ rest)) none pre.length ts
        { max_flips, candidates } = .ok (some r) ∧
      r.packet.data.take (crcPlace p.extended + 1) = p.data.take (crcPlace p.extended + 1) ∧
      r.corrected ≤ 1 := by
  have hsixteen : 16 ≤ i := hheader
  obtain ⟨j, rfl⟩ : ∃ j, i = markerOffset + j := Nat.exists_eq_add_of_le (by
    rw [markerOffset]
    omega)
  have ho : CanRepair { max_flips, candidates } := ⟨hflips, hcand, rfl, rfl⟩
  obtain ⟨hclean, hbytes⟩ := clean_frames h
  have hbit : p.extended = true → bitOf j ≠ some extPosition :=
    fun hkind => bitOf_ne_ext (hext hkind).1 (hext hkind).2
  have hread := readPacketAt_wrong h pre rest hlast hbit
  -- what is made of it
  obtain ⟨found, corrected, bad, hsettle, hfound, hone⟩ := settle_doubt hclean ho hbit
  rw [hbytes] at hfound
  have hframes : (doubt (((indexedFrames p).flatMap logicalBits).map sure) (bitOf j)).length /
      frameLogicalBits = p.data.length := by
    rw [length_doubt, List.length_map, hclean.length]
    exact Nat.mul_div_cancel _ (by decide)
  rw [← hframes] at hsettle
  obtain ⟨hne, hfirst⟩ := firstByte_of_take p.data_ne hfound
  have hhops : flagsHopsOk (firstByte found) = true := by rw [hfirst, ← hopsOk_eq, h.hops]
  obtain ⟨r, hjudge, hdata, hcorrected⟩ := judge_of_settle (pre ++ (p.messageBits.modify
    (markerOffset + j) (!·) ++ rest)) pre.length ts hsettle hne hhops
  refine ⟨r, ?_, by rw [hdata, hfound], by rw [hcorrected]; exact hone⟩
  rw [recoverAt, recoverFrom_natCast, recoverAtOffset]
  change Except.ok ((readPacketAt (hardSoft _) _).bind _) = _
  rw [hread]
  exact congrArg Except.ok hjudge

/-- A wrong symbol in the first command byte of a clean packet. -/
def oneWrongLine : Bits := cleanLine.modify 213 (!·)

theorem recoverAt_oneWrongSymbol_clean :
    ∃ r, recoverAt oneWrongLine none 0 none {} = .ok (some r) ∧
      r.packet.data.take 10 = cleanPacket.data.take 10 ∧ r.corrected ≤ 1 := by
  have hvalid : cleanPacket.Valid := by
    constructor <;> decide +kernel
  have hbits : cleanPacket.messageBits = cleanLine := by decide +kernel
  have hlast : 213 < cleanPacket.messageBits.length := by
    rw [hbits]
    decide +kernel
  have hstandard : cleanPacket.extended = false := by decide +kernel
  have hrun := recoverAt_oneWrongSymbol hvalid [] [] (i := 213) (by decide) hlast
    (by rw [hstandard]; exact Bool.noConfusion) (show (1 : ℤ) ≤ 2 by decide)
    (show (1 : ℤ) ≤ 10 by decide) none
  rw [hbits, hstandard, List.append_nil, List.nil_append, List.length_nil, Nat.cast_zero,
    ← oneWrongLine] at hrun
  exact hrun

end Recover

end InsteonRf
