import InsteonRf.CounterTruth

/-!
# The two decoders agree

On soft values whose signs are the bits, recovery reads what the hard decoder reads. A
packet the hard decoder verified is recovered too, unless a damaged copy of the same bytes
stands before it in the burst.
-/
namespace InsteonRf
open LsbBits Selection StringSearch SignedIndex Rounding

namespace Recover

/-- A soft value on the side of its bit. -/
def SameSign (s : ℚ) (b : Bool) : Prop := if b then 0 < s else s < 0

abbrev Agrees (sym : List ℚ) (bits : Bits) : Prop := List.Forall₂ SameSign sym bits

theorem agrees_hardSoft (bits : Bits) : Agrees (hardSoft bits) bits := by
  induction bits with
  | nil => exact .nil
  | cons b bits ih =>
      apply List.Forall₂.cons _ ih
      cases b <;> norm_num [SameSign]

theorem Agrees.neg {sym : List ℚ} {bits : Bits} (h : Agrees sym bits) :
    Agrees (sym.map (- ·)) (invertBits bits) := by
  induction h with
  | nil => exact .nil
  | @cons s b sym bits hsign _ ih =>
      apply List.Forall₂.cons _ ih
      cases b <;> simpa [SameSign] using hsign

/-- Pairs that agree with a Manchester code are read as what it codes. -/
theorem readings_of_agrees {l : List ℚ} {bs rest : Bits}
    (h : Agrees l (manchesterEncode bs ++ rest)) :
    (readings l bs.length).map Reading.value = bs := by
  induction bs generalizing l with
  | nil => simp [readings]
  | cons b bs ih =>
      rw [manchesterEncode_cons, List.append_assoc] at h
      cases b with
      | false =>
          have hpair : Agrees l (true :: false :: (manchesterEncode bs ++ rest)) := h
          obtain ⟨s₀, l₀, hs₀, h₀, rfl⟩ := List.forall₂_cons_right_iff.mp hpair
          obtain ⟨s₁, l₁, hs₁, h₁, rfl⟩ := List.forall₂_cons_right_iff.mp h₀
          have hpos : 0 < s₀ := hs₀
          have hneg : s₁ < 0 := hs₁
          have hle : ¬ 0 < s₁ - s₀ := by linarith
          simp only [readings, List.length_cons, List.map_cons, ih h₁, reading, hle,
            decide_false]
      | true =>
          have hpair : Agrees l (false :: true :: (manchesterEncode bs ++ rest)) := h
          obtain ⟨s₀, l₀, hs₀, h₀, rfl⟩ := List.forall₂_cons_right_iff.mp hpair
          obtain ⟨s₁, l₁, hs₁, h₁, rfl⟩ := List.forall₂_cons_right_iff.mp h₀
          have hneg : s₀ < 0 := hs₀
          have hpos : 0 < s₁ := hs₁
          have hlt : 0 < s₁ - s₀ := by linarith
          simp only [readings, List.length_cons, List.map_cons, ih h₁, reading, hlt, decide_true]

def logicalBits (f : ℕ × Byte) : List Bool := lsbBits 5 f.1 ++ lsbBits 8 f.2.toNat

@[simp] theorem length_logicalBits (f : ℕ × Byte) :
    (logicalBits f).length = frameLogicalBits := by
  simp [logicalBits, frameLogicalBits, frameIndexBits, frameDataBits]

theorem head_of_agrees {l : List ℚ} {f : ℕ × Byte} (rest : Bits)
    (h : Agrees l (frame f.1 f.2 ++ rest)) :
    (readings (l.drop 2) frameLogicalBits).map Reading.value = logicalBits f := by
  have hdrop : Agrees (l.drop 2) (manchesterEncode (logicalBits f) ++ rest) :=
    List.forall₂_drop 2 h
  rw [← length_logicalBits f]
  exact readings_of_agrees hdrop

theorem frameReadings_of_agrees {l : List ℚ} {fs : List (ℕ × Byte)} {rest : Bits}
    (h : Agrees l ((fs.map (fun f => frame f.1 f.2)).flatten ++ rest)) :
    (frameReadings l fs.length).map Reading.value = fs.flatMap logicalBits := by
  induction fs generalizing l with
  | nil => rfl
  | cons f fs ih =>
      rw [List.map_cons, List.flatten_cons, List.append_assoc] at h
      have hhead := head_of_agrees _ h
      have hfull : ¬ (readings (l.drop 2) frameLogicalBits).length < frameLogicalBits := by
        rw [← List.length_map Reading.value, hhead, length_logicalBits]
        exact lt_irrefl _
      have htail := List.forall₂_drop frameBits h
      rw [List.drop_left' (length_frame f.1 f.2)] at htail
      rw [List.length_cons, frameReadings, if_neg hfull, List.map_append, hhead, ih htail,
        List.flatMap_cons]

theorem bytesFrom_append {chunk rest : List Bool} (h : chunk.length = frameLogicalBits) (n : ℕ) :
    bytesFrom (chunk ++ rest) (n + 1) =
      BitVec.ofNat 8 (ofLsbBits ((chunk.drop 5).take 8)) :: bytesFrom rest n := by
  simp only [frameLogicalBits, frameIndexBits, frameDataBits] at h
  rw [bytesFrom, List.range_succ_eq_map, List.map_cons, List.map_map, bytesFrom]
  congr 1
  · simp only [Nat.zero_mul, Nat.zero_add, frameIndexBits, frameDataBits]
    rw [List.drop_append_of_le_length (by omega), List.take_append_of_le_length (by simp; omega)]
  · apply List.map_congr_left
    intro f _
    have hshift : (f + 1) * 13 + 5 = chunk.length + (f * 13 + 5) := by omega
    simp only [Function.comp_apply, Nat.succ_eq_add_one, frameLogicalBits, frameIndexBits,
      frameDataBits, hshift, List.drop_length_add_append]

theorem countersFrom_append {chunk rest : List Bool} (h : chunk.length = frameLogicalBits)
    (n : ℕ) :
    countersFrom (chunk ++ rest) (n + 1) = ofLsbBits (chunk.take 5) :: countersFrom rest n := by
  simp only [frameLogicalBits, frameIndexBits, frameDataBits] at h
  rw [countersFrom, List.range_succ_eq_map, List.map_cons, List.map_map, countersFrom]
  congr 1
  · simp only [Nat.zero_mul, List.drop_zero, frameIndexBits]
    rw [List.take_append_of_le_length (by omega)]
  · apply List.map_congr_left
    intro f _
    have hshift : (f + 1) * 13 = chunk.length + f * 13 := by omega
    simp only [Function.comp_apply, Nat.succ_eq_add_one, frameLogicalBits, frameIndexBits,
      frameDataBits, hshift, List.drop_length_add_append]

theorem bytesFrom_logicalBits (fs : List (ℕ × Byte)) :
    bytesFrom (fs.flatMap logicalBits) fs.length = fs.map Prod.snd := by
  induction fs with
  | nil => rfl
  | cons f fs ih =>
      have hbyte : ofLsbBits (((logicalBits f).drop 5).take 8) = f.2.toNat := by
        rw [logicalBits, List.drop_left' (length_lsbBits 5 f.1),
          List.take_of_length_le (by simp), ofLsbBits_lsbBits f.2.isLt]
      rw [List.flatMap_cons, List.length_cons, bytesFrom_append (length_logicalBits f), ih, hbyte,
        BitVec.ofNat_toNat, BitVec.setWidth_eq, List.map_cons]

theorem countersFrom_logicalBits {fs : List (ℕ × Byte)} (h : ∀ f ∈ fs, f.1 < 32) :
    countersFrom (fs.flatMap logicalBits) fs.length = fs.map Prod.fst := by
  induction fs with
  | nil => rfl
  | cons f fs ih =>
      have hidx : ofLsbBits ((logicalBits f).take 5) = f.1 := by
        rw [logicalBits, List.take_left' (length_lsbBits 5 f.1),
          ofLsbBits_lsbBits (h f List.mem_cons_self)]
      rw [List.flatMap_cons, List.length_cons, countersFrom_append (length_logicalBits f),
        ih (fun g hg => h g (List.mem_cons_of_mem f hg)), hidx, List.map_cons]

theorem complete_length {extended : Bool} {n : ℕ}
    (h : ((expectedIndexes extended).take n).getLast? = some 0) : fullLen extended ≤ n := by
  by_contra hshort
  cases extended with
  | false =>
      have hn : n < 13 := by simpa [fullLen, stdLen] using hshort
      have hnever : ∀ n < 13, ((expectedIndexes false).take n).getLast? ≠ some 0 := by decide
      exact hnever n hn h
  | true =>
      have hn : n < 32 := by simpa [fullLen, extLen] using hshort
      have hnever : ∀ n < 32, ((expectedIndexes true).take n).getLast? ≠ some 0 := by decide
      exact hnever n hn h

theorem crcOk_of_crc {p : Packet} (hcrc : p.crcOk = some true)
    (hext : p.extended = true → p.extCrcOk = some true) : crcOk p.data p.extended = true := by
  obtain ⟨c, hc, hmatch⟩ : ∃ c, p.crc = some c ∧ decide (some c = p.calcCrc) = true := by
    rw [Packet.crcOk] at hcrc
    obtain ⟨c, hc, hmatch⟩ := Option.map_eq_some_iff.mp hcrc
    exact ⟨c, hc, hmatch⟩
  obtain ⟨hlen, hget⟩ := List.getElem?_eq_some_iff.mp hc
  have hcalc : c = pktCrc p.data := by
    have hmatch' := of_decide_eq_true hmatch
    rw [Packet.calcCrc, if_pos hlen.le] at hmatch'
    exact Option.some.inj hmatch'
  have hbyte : p.data.getD p.crcIndex 0 = pktCrc p.data := by
    rw [List.getD_eq_getElem?_getD, List.getElem?_eq_getElem hlen, hget, hcalc]
    rfl
  rw [Packet.crcIndex] at hlen hbyte
  cases hkind : p.extended with
  | false =>
      rw [hkind] at hlen hbyte
      simp only [Bool.false_eq_true, if_false] at hlen hbyte
      rw [crcOk, if_neg (by decide), if_neg (by omega)]
      exact decide_eq_true hbyte
  | true =>
      have hx := hext hkind
      rw [hkind] at hlen hbyte
      simp only [if_true] at hlen hbyte
      have hin : extDataCrcIndex < p.data.length := by
        simp only [extCrcIndex, extDataCrcIndex] at hlen ⊢
        omega
      rw [Packet.extCrcOk, if_pos hkind, List.getElem?_eq_getElem hin] at hx
      have hxbyte : p.data.getD extDataCrcIndex 0 = extCrc p.data := by
        rw [List.getD_eq_getElem?_getD, List.getElem?_eq_getElem hin]
        simpa using hx
      rw [crcOk, if_pos rfl, if_neg (by omega), Bool.and_eq_true]
      exact ⟨decide_eq_true hbyte, decide_eq_true hxbyte⟩

/-- What the hard decoder must have verified of a packet. -/
structure Verified (p : Packet) : Prop where
  complete : p.complete = true
  index_ok : p.index_ok = some true
  crc : p.crcOk = some true
  hops : p.hopsOk = true
  extCrc : p.extended = true → p.extCrcOk = some true

/-- The frames behind the header of a complete packet with verified counters. -/
theorem frames_of_parseAt {bits : Bits} {ts : Option Time} {minBytes pos : ℕ} {p : Packet}
    (hpos : OccursAt startHeader bits pos) (h : parseAt bits ts minBytes pos = some p)
    (hv : Verified p) :
    ∃ (fs : List (ℕ × Byte)) (rest : Bits), bits.drop (pos + markerOffset) =
        (fs.map (fun f => frame f.1 f.2)).flatten ++ rest ∧
      fs.map Prod.fst = expectedIndexes p.extended ∧ fs.map Prod.snd = p.data := by
  obtain ⟨hdata, hbits, hcomplete, -⟩ := parseAt_eq_some h
  obtain ⟨hcanonical, hle⟩ := canonical_of_parseAt hpos h hv.index_ok
  obtain ⟨-, hcounters⟩ := decodedCounters_of_parseAt h hv.index_ok
  have hlast := hv.complete
  rw [hcomplete, hcounters] at hlast
  have hfull := complete_length (of_decide_eq_true hlast)
  have hlen : (expectedIndexes p.extended).length = p.data.length := by
    rw [length_expectedIndexes]
    omega
  refine ⟨(expectedIndexes p.extended).zip p.data,
    (bits.drop (pos + markerOffset)).drop (frameBits * p.data.length), ?_, ?_, ?_⟩
  · have hframes : (bits.drop (pos + markerOffset)).take (frameBits * p.data.length) =
        canonicalFrames p.extended p.data := by
      rw [hbits, List.take_add, header_take hpos, List.drop_drop] at hcanonical
      exact List.append_cancel_left hcanonical
    rw [flatten_frames_eq_zipWith, List.map_fst_zip hlen.le, List.map_snd_zip hlen.ge,
      ← canonicalFrames, ← hframes, List.take_append_drop]
  · exact List.map_fst_zip hlen.le
  · exact List.map_snd_zip hlen.ge

theorem isExtended_of_head {p : Packet} {f : ℕ × Byte} {fs : List (ℕ × Byte)}
    (hdata : (f :: fs).map Prod.snd = p.data) :
    isExtended (firstByte (bytesFrom (logicalBits f) 1)) = p.extended := by
  have hone := bytesFrom_logicalBits [f]
  simp only [List.flatMap_cons, List.flatMap_nil, List.append_nil, List.length_cons,
    List.length_nil, Nat.zero_add, List.map_cons, List.map_nil] at hone
  rw [hone, Packet.extended, Packet.flagsByte, ← hdata]
  rfl

/-- Values that agree with the frames of a packet are read with the packet's layout. -/
theorem readPacketAt_of_agrees {sym : List ℚ} {pos : ℕ} {p : Packet} {fs : List (ℕ × Byte)}
    {rest : Bits} (hdata : fs.map Prod.snd = p.data) (hcount : fs.length = fullLen p.extended)
    (hagree : Agrees (sym.drop (pos + markerOffset))
      ((fs.map (fun f => frame f.1 f.2)).flatten ++ rest)) :
    readPacketAt sym pos =
      some (p.extended, frameReadings (sym.drop (pos + markerOffset)) fs.length) := by
  cases fs with
  | nil => exact absurd hdata.symm p.data_ne
  | cons f fs =>
      have hhead : (readings ((sym.drop (pos + markerOffset)).drop 2) frameLogicalBits).map
          Reading.value = logicalBits f := by
        apply head_of_agrees ((fs.map (fun f => frame f.1 f.2)).flatten ++ rest)
        rw [List.map_cons, List.flatten_cons, List.append_assoc] at hagree
        exact hagree
      have hfull : ¬ (readings ((sym.drop (pos + markerOffset)).drop 2)
          frameLogicalBits).length < frameLogicalBits := by
        rw [← List.length_map Reading.value, hhead, length_logicalBits]
        exact lt_irrefl _
      rw [readPacketAt]
      simp only [hfull, if_false, hhead, isExtended_of_head hdata]
      rw [hcount]
      rfl

theorem values_of_frames {p : Packet} {fs : List (ℕ × Byte)}
    (hfst : fs.map Prod.fst = expectedIndexes p.extended) (hsnd : fs.map Prod.snd = p.data) :
    (fs.flatMap logicalBits).length = fs.length * frameLogicalBits ∧
      bytesFrom (fs.flatMap logicalBits) fs.length = p.data ∧
      indexErrors (fs.flatMap logicalBits) fs.length p.extended = 0 := by
  have hcount : fs.length = fullLen p.extended := by
    rw [← length_expectedIndexes, ← hfst, List.length_map]
  have hindex : ∀ g ∈ fs, g.1 < 32 := by
    intro g hg
    have hexpected : g.1 ∈ expectedIndexes p.extended := by
      rw [← hfst]
      exact List.mem_map_of_mem hg
    exact expectedIndexes_lt hexpected
  refine ⟨?_, by rw [bytesFrom_logicalBits, hsnd], ?_⟩
  · rw [List.length_flatMap]
    simp
  · rw [indexErrors_eq_zero _ hcount.le, countersFrom_logicalBits hindex, hfst, hcount,
      List.take_of_length_le (by rw [length_expectedIndexes])]

/-- Frames with the counters of a whole packet and matching checksums are settled on at
once. -/
theorem settle_of_frames {p : Packet} {fs : List (ℕ × Byte)} {all : List Reading}
    {o : RecoverOptions} (hvalues : all.map Reading.value = fs.flatMap logicalBits)
    (hfst : fs.map Prod.fst = expectedIndexes p.extended) (hsnd : fs.map Prod.snd = p.data)
    (hcrc : crcOk p.data p.extended = true) (hmax : 0 ≤ o.max_index_errors) :
    settle (all.map Reading.value) (all.map Reading.conf)
      (all.length / frameLogicalBits) p.extended o = some (p.data, 0, 0) := by
  obtain ⟨hsize, hbytes, hclean⟩ := values_of_frames hfst hsnd
  have hk : all.length / frameLogicalBits = fs.length := by
    rw [← List.length_map Reading.value, hvalues, hsize]
    exact Nat.mul_div_cancel _ (by decide)
  rw [hk, settle, hvalues, hclean, hbytes, if_neg (by simpa using hmax), if_pos hcrc]

/-- A packet the hard decoder verified is recovered at the same header, as it stands. -/
theorem recoverAtOffset_of_verified {bits : Bits} {sym : List ℚ} {ts : Option Time}
    (ts' : Option Time)
    {minBytes pos : ℕ} {p : Packet} {o : RecoverOptions} (hsym : Agrees sym bits)
    (hpos : OccursAt startHeader bits pos) (h : parseAt bits ts minBytes pos = some p)
    (hv : Verified p) (hmax : 0 ≤ o.max_index_errors) :
    ∃ r, recoverAtOffset bits sym pos ts' o = some r ∧ r.packet.data = p.data ∧
      r.corrected = 0 := by
  obtain ⟨fs, rest, hdrop, hfst, hsnd⟩ := frames_of_parseAt hpos h hv
  have hagree : Agrees (sym.drop (pos + markerOffset))
      ((fs.map (fun f => frame f.1 f.2)).flatten ++ rest) := by
    rw [← hdrop]
    exact List.forall₂_drop _ hsym
  have hcount : fs.length = fullLen p.extended := by
    rw [← length_expectedIndexes, ← hfst, List.length_map]
  have hread := readPacketAt_of_agrees hsnd hcount hagree
  have hvalues := frameReadings_of_agrees hagree
  generalize frameReadings (sym.drop (pos + markerOffset)) fs.length = all at hread hvalues
  have hsettle := settle_of_frames hvalues hfst hsnd (crcOk_of_crc hv.crc hv.extCrc) hmax
  obtain ⟨r, hr, hdata, hzero⟩ := judge_of_settle bits pos ts' hsettle
    p.data_ne (by rw [← hopsOk_eq]; exact hv.hops)
  refine ⟨r, ?_, hdata, hzero⟩
  rw [recoverAtOffset, hread]
  exact hr

/-- No soft values, or enough of them, each on the side of its bit. -/
def SoftAgrees (line : Bits) (soft : Option (List ℚ)) : Prop :=
  ∀ v, soft = some v → line.length ≤ v.length ∧ Agrees (v.take line.length) line

/-- The soft values do not vanish in single precision. -/
def KeepsSigns (line : Bits) (soft : Option (List ℚ)) : Prop :=
  ∀ v, soft = some v → ∀ s ∈ v.take line.length, 2 ^ (-150 : ℤ) < |s|

theorem agrees_float32 {sym : List ℚ} {bits : Bits} (h : Agrees sym bits)
    (hsize : ∀ s ∈ sym, 2 ^ (-150 : ℤ) < |s|) : Agrees (sym.map float32) bits := by
  induction h with
  | nil => exact .nil
  | @cons s b sym bits hsign _ ih =>
      obtain ⟨hhead, htail⟩ := List.forall_mem_cons.mp hsize
      apply List.Forall₂.cons _ (ih htail)
      cases b with
      | true =>
          have hpos : 0 < s := hsign
          rw [abs_of_pos hpos] at hhead
          exact float32_pos hhead
      | false =>
          have hneg : s < 0 := hsign
          rw [abs_of_neg hneg] at hhead
          have hcast := float32_pos hhead
          rw [float32_neg] at hcast
          exact neg_pos.mp hcast

theorem agrees_softFor {line : Bits} {soft : Option (List ℚ)} (h : SoftAgrees line soft)
    (hsize : KeepsSigns line soft) : Agrees (softFor line soft) line := by
  unfold softFor
  cases soft with
  | none => exact agrees_hardSoft line
  | some v =>
      obtain ⟨hlen, hsign⟩ := h v rfl
      simp only [hlen, if_true]
      exact agrees_float32 hsign (hsize v rfl)

/-- The soft values follow the bits through the change of polarity. -/
theorem agrees_alignedSoft {line : Bits} {soft : Option (List ℚ)} (h : SoftAgrees line soft)
    (hsize : KeepsSigns line soft) : Agrees (alignedSoft line soft) (findHeaders line).1 := by
  have hsign := agrees_softFor h hsize
  rw [alignedSoft]
  by_cases hsame : (findHeaders line).1 = line
  · simp only [hsame, ne_eq, not_true_eq_false, if_false]
    exact hsign
  · simp only [hsame, ne_eq, not_false_eq_true, if_true]
    have hinv : (findHeaders line).1 = invertBits line := by
      rw [findHeaders] at hsame ⊢
      by_cases hi : headerInverted line = true
      · simp only [hi, if_true]
      · simp only [hi, Bool.false_eq_true, if_false, not_true_eq_false] at hsame
    rw [hinv]
    exact hsign.neg

/-- Recovery does no worse than the hard decoder: what that verified is answered with the
same bytes, and unrepaired unless an earlier header led to the same bytes by repair. -/
theorem recoverPackets_no_worse (line : Bits) (soft : Option (List ℚ)) (ts ts' : Option Time)
    (minBytes : ℕ) (o : RecoverOptions) (hsoft : SoftAgrees line soft)
    (hsize : KeepsSigns line soft) (hmax : 0 ≤ o.max_index_errors) (p : Packet) (hp : p ∈ parseBits line ts minBytes)
    (hv : Verified p) :
    ∃ out, recoverPackets line soft ts' none o = .ok out ∧ ∃ r ∈ out, r.packet.data = p.data ∧
      (r.corrected = 0 ∨ ∃ pos ∈ (findHeaders line).2, ∃ pos' ∈ (findHeaders line).2, pos' < pos ∧
        parseAt (findHeaders line).1 ts minBytes pos = some p ∧
        recoverAtOffset (findHeaders line).1 (alignedSoft line soft) pos' ts' o = some r) := by
  obtain ⟨pos, hpos, hparse⟩ := mem_parseBits.mp hp
  obtain ⟨r₀, hr₀, hdata, hzero⟩ := recoverAtOffset_of_verified ts'
    (agrees_alignedSoft hsoft hsize) (occursAt_of_mem_findHeaders hpos) hparse hv hmax
  obtain ⟨u, v, hsplit⟩ := List.append_of_mem hpos
  obtain ⟨r, hr, hkey, hfrom⟩ := firstOfEach_first (fun r => r.packet.data) []
    (u.filterMap (fun pos =>
      recoverAtOffset (findHeaders line).1 (alignedSoft line soft) pos ts' o))
    (v.filterMap (fun pos =>
      recoverAtOffset (findHeaders line).1 (alignedSoft line soft) pos ts' o))
    r₀ List.not_mem_nil
  refine ⟨_, recoverPackets_none line soft ts' o, r, ?_, hkey.trans hdata, ?_⟩
  · rw [hsplit, List.filterMap_append, List.filterMap_cons, hr₀]
    exact hr
  · rcases hfrom with rfl | hearlier
    · exact Or.inl hzero
    · obtain ⟨pos', hpos', hr'⟩ := List.mem_filterMap.mp hearlier
      have hsorted := findHeaders_sorted line
      rw [hsplit, List.pairwise_append] at hsorted
      have hlt : pos' < pos := hsorted.2.2 pos' hpos' pos List.mem_cons_self
      have hmem : pos' ∈ (findHeaders line).2 := by
        rw [hsplit]
        exact List.mem_append_left _ hpos'
      exact Or.inr ⟨pos, hpos, pos', hmem, hlt, hparse, hr'⟩

/-- A standard packet from its header on, and the same twice in a burst, with one wrong
symbol in the first copy. -/
def cleanPacket : Packet :=
  Packet.ofBytes 0x0B#8 [0x07#8, 0x93#8, 0x2B#8, 0x1D#8, 0x50#8, 0x33#8, 0x11#8, 0xFF#8, 0x94#8,
    0x00#8, 0x00#8, 0xAA#8]

def cleanLine : Bits := ((onAir cleanPacket).drop 15).take 369

def twiceLine : Bits := flipAt cleanLine [213] ++ cleanLine

theorem verified_iff (p : Packet) : Verified p ↔ p.complete = true ∧ p.index_ok = some true ∧
    p.crcOk = some true ∧ p.hopsOk = true ∧ (p.extended = true → p.extCrcOk = some true) := by
  constructor
  · exact fun h => ⟨h.complete, h.index_ok, h.crc, h.hops, h.extCrc⟩
  · exact fun ⟨hc, hi, hcrc, hh, hx⟩ => ⟨hc, hi, hcrc, hh, hx⟩

instance (p : Packet) : Decidable (Verified p) := decidable_of_iff _ (verified_iff p).symm

theorem agrees_scaled (bits : Bits) {c : ℚ} (hc : 0 < c) :
    Agrees ((hardSoft bits).map (· / c)) bits := by
  induction bits with
  | nil => exact .nil
  | cons b bits ih =>
      apply List.Forall₂.cons _ ih
      cases b
      · exact div_neg_of_neg_of_pos (by norm_num) hc
      · exact div_pos (by norm_num) hc

theorem softAgrees_scaled (bits : Bits) {c : ℚ} (hc : 0 < c) :
    SoftAgrees bits (some ((hardSoft bits).map (· / c))) := by
  rintro v hv
  obtain rfl := Option.some.inj hv
  have hlen : ((hardSoft bits).map (· / c)).length = bits.length := by simp [hardSoft]
  rw [List.take_of_length_le hlen.le]
  exact ⟨hlen.ge, agrees_scaled bits hc⟩

def halfSoft : List ℚ := (hardSoft cleanLine).map (· / 2)

theorem keepsSigns_halfSoft : KeepsSigns cleanLine (some halfSoft) := by
  rintro v hv s hs
  obtain rfl := Option.some.inj hv
  obtain ⟨t, ht, rfl⟩ := List.mem_map.mp (List.mem_of_mem_take hs)
  obtain ⟨b, -, rfl⟩ := List.mem_map.mp ht
  cases b <;> norm_num [abs_div]

theorem recoverPackets_no_worse_clean :
    ∃ p ∈ parseBits cleanLine none 4,
      ∃ out, recoverPackets cleanLine (some halfSoft) none none {} = .ok out ∧
      ∃ r ∈ out, r.packet.data = p.data := by
  obtain ⟨p, hp, hv⟩ : ∃ p ∈ parseBits cleanLine none 4, Verified p := by decide +kernel
  obtain ⟨out, hout, r, hr, hdata, -⟩ := recoverPackets_no_worse cleanLine (some halfSoft) none
    none 4 {} (softAgrees_scaled cleanLine (by norm_num)) keepsSigns_halfSoft (by decide) p hp hv
  exact ⟨p, hp, out, hout, r, hr, hdata⟩

/-- Soft values for the clean burst that are too small for single precision. -/
def faintSoft : List ℚ := (hardSoft cleanLine).map (· / 10 ^ 50)

theorem softFor_faintSoft :
    softFor cleanLine (some faintSoft) = List.replicate cleanLine.length 0 := by
  have hlen : faintSoft.length = cleanLine.length := by simp [faintSoft, hardSoft]
  rw [softFor]
  simp only [hlen, le_refl, if_true, List.take_of_length_le hlen.le]
  rw [List.eq_replicate_iff]
  refine ⟨by rw [List.length_map, hlen], ?_⟩
  intro s hs
  obtain ⟨t, ht, rfl⟩ := List.mem_map.mp hs
  obtain ⟨u, hu, rfl⟩ := List.mem_map.mp ht
  obtain ⟨b, -, rfl⟩ := List.mem_map.mp hu
  apply float32_eq_zero
  cases b <;> norm_num [abs_div]

/-- A negative error limit refuses a clean packet, a repaired copy hides a clean one, and
soft values too small for single precision lose their signs. -/
theorem recoverPackets_worse :
    (∃ p ∈ parseBits cleanLine none 4, Verified p ∧
      recoverPackets cleanLine none none none { max_index_errors := -1 } = .ok []) ∧
    (∃ p ∈ parseBits twiceLine none 4, Verified p ∧
      ∃ r, recoverPackets twiceLine none none none {} = .ok [r] ∧ r.packet.data = p.data ∧
        r.corrected = 1) ∧
    (∃ p ∈ parseBits cleanLine none 4, Verified p ∧ SoftAgrees cleanLine (some faintSoft) ∧
      recoverPackets cleanLine (some faintSoft) none none {} = .ok []) := by
  refine ⟨by decide +kernel, ?_, ?_⟩
  · obtain ⟨p, hp, hv, hdata⟩ : ∃ p ∈ parseBits twiceLine none 4, Verified p ∧
        p.data = cleanPacket.data := by
      decide +kernel
    have hrun : (firstOfEach (fun r => r.packet.data) [] ((findHeaders twiceLine).2.filterMap
        (fun pos => recoverAtOffset (findHeaders twiceLine).1 (alignedSoft twiceLine none) pos none
          {}))).map (fun r => (r.packet.data, r.corrected)) = [(cleanPacket.data, 1)] := by
      decide +kernel
    obtain ⟨r, hr, hsummary⟩ := List.map_eq_singleton_iff.mp hrun
    obtain ⟨hbytes, hone⟩ := Prod.mk.inj hsummary
    exact ⟨p, hp, hv, r, by rw [recoverPackets_none, hr], hbytes.trans hdata.symm, hone⟩
  · obtain ⟨p, hp, hv⟩ : ∃ p ∈ parseBits cleanLine none 4, Verified p := by decide +kernel
    refine ⟨p, hp, hv, softAgrees_scaled cleanLine (by norm_num), ?_⟩
    have hheaders : findHeaders cleanLine = (cleanLine, [0]) := by decide +kernel
    have haligned : alignedSoft cleanLine (some faintSoft) =
        List.replicate cleanLine.length 0 := by
      rw [alignedSoft, hheaders, softFor_faintSoft]
      simp
    have hnothing : recoverAtOffset cleanLine (List.replicate cleanLine.length 0) 0 none {} =
        none := by
      decide +kernel
    rw [recoverPackets_none, hheaders, haligned]
    simp only [List.filterMap_cons, hnothing, List.filterMap_nil]
    rfl

end Recover

end InsteonRf
