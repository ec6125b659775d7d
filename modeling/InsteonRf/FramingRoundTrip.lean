import InsteonRf.FramingCanonical

/-!
# Round trip of the air codec

A concatenation of framed packets is a string of symbol pairs: Manchester bits
and frame markers. A start header stands only where a marker is followed by
index 31, which is where a packet begins; so the decoder finds each packet once.
-/
namespace InsteonRf
open LsbBits StringSearch

/-- The pairs of the framing: the two Manchester bits and the frame marker. -/
inductive Pair where
  | bit : Bool → Pair
  | mark : Pair
  deriving DecidableEq, Repr

def Pair.symbols : Pair → Bits
  | bit b => encodeBit b
  | mark => [true, true]

def pairSymbols (ps : List Pair) : Bits := ps.flatMap Pair.symbols

def framePairs (f : ℕ × Byte) : List Pair :=
  Pair.mark :: (lsbBits 5 f.1 ++ lsbBits 8 f.2.toNat).map Pair.bit

/-- A marker and five one bits: the only place where a start header fits. -/
def FirstFrameAt (ps : List Pair) (k : ℕ) : Prop :=
  Pair.mark :: List.replicate 5 (Pair.bit true) <+: ps.drop k

@[simp] theorem pairSymbols_cons (p : Pair) (ps : List Pair) :
    pairSymbols (p :: ps) = p.symbols ++ pairSymbols ps := rfl

theorem pairSymbols_append (ps qs : List Pair) :
    pairSymbols (ps ++ qs) = pairSymbols ps ++ pairSymbols qs := by
  simp [pairSymbols]

theorem pairSymbols_bits (bits : Bits) : pairSymbols (bits.map Pair.bit) = manchesterEncode bits := by
  induction bits with
  | nil => rfl
  | cons b bits ih => rw [List.map_cons, pairSymbols_cons, ih]; rfl

@[simp] theorem length_symbols (p : Pair) : p.symbols.length = 2 := by
  rcases p with (_ | _) | _ <;> rfl

@[simp] theorem length_pairSymbols (ps : List Pair) : (pairSymbols ps).length = 2 * ps.length := by
  induction ps with
  | nil => rfl
  | cons p ps ih =>
      rw [pairSymbols_cons, List.length_append, ih, length_symbols, List.length_cons]
      ring

theorem pairSymbols_framePairs (f : ℕ × Byte) : pairSymbols (framePairs f) = frame f.1 f.2 := by
  rw [framePairs, pairSymbols_cons, pairSymbols_bits]
  rfl

theorem drop_pairSymbols (ps : List Pair) (m : ℕ) :
    (pairSymbols ps).drop (2 * m) = pairSymbols (ps.drop m) := by
  induction m generalizing ps with
  | zero => rfl
  | succ m ih =>
      cases ps with
      | nil => simp [pairSymbols]
      | cons p ps =>
          have hsplit : 2 * (m + 1) = p.symbols.length + 2 * m := by
            rw [length_symbols]
            ring
          rw [pairSymbols_cons, hsplit, ← List.drop_drop, List.drop_left, ih, List.drop_succ_cons]

theorem prefix_pairSymbols {a b : Bool} {pat : Bits} {ps : List Pair}
    (h : a :: b :: pat <+: pairSymbols ps) :
    ∃ p qs, ps = p :: qs ∧ p.symbols = [a, b] ∧ pat <+: pairSymbols qs := by
  cases ps with
  | nil => simp [pairSymbols] at h
  | cons p qs =>
      refine ⟨p, qs, rfl, ?_⟩
      obtain ⟨c, d, hcd⟩ := List.length_eq_two.mp (length_symbols p)
      rw [pairSymbols_cons, hcd] at h
      obtain ⟨hac, hrest⟩ := List.cons_prefix_cons.mp h
      obtain ⟨hbd, htail⟩ := List.cons_prefix_cons.mp hrest
      exact ⟨by rw [hcd, hac, hbd], htail⟩

theorem eq_mark_of_symbols {p : Pair} (h : p.symbols = [true, true]) : p = .mark := by
  rcases p with (_ | _) | _ <;> simp_all [Pair.symbols, encodeBit]

theorem eq_one_of_symbols {p : Pair} (h : p.symbols = [false, true]) : p = .bit true := by
  rcases p with (_ | _) | _ <;> simp_all [Pair.symbols, encodeBit]

theorem not_symbols_zeros {p : Pair} : p.symbols ≠ [false, false] := by
  rcases p with (_ | _) | _ <;> simp [Pair.symbols, encodeBit]

theorem eq_one_of_symbols_head {ps : List Pair} (h : [false] <+: pairSymbols ps) :
    ∃ qs, ps = .bit true :: qs := by
  match ps with
  | [] => simp [pairSymbols] at h
  | .bit true :: qs => exact ⟨qs, rfl⟩
  | .bit false :: qs => simp [Pair.symbols, encodeBit] at h
  | .mark :: qs => simp [Pair.symbols] at h

/-- A header cannot stand on a pair boundary, for that would need the pair `00`;
off the boundary it contains a marker with all index bits set. -/
theorem header_in_pairs {ps : List Pair} {i : ℕ} (h : OccursAt startHeader (pairSymbols ps) i) :
    ∃ m, i = 2 * m + 1 ∧ FirstFrameAt ps (m + 3) := by
  obtain ⟨m, rfl | rfl⟩ : ∃ m, i = 2 * m ∨ i = 2 * m + 1 := ⟨i / 2, by omega⟩
  · rw [OccursAt, drop_pairSymbols] at h
    obtain ⟨p, qs, -, -, h⟩ := prefix_pairSymbols h
    obtain ⟨p, qs, -, hp, -⟩ := prefix_pairSymbols h
    exact absurd hp not_symbols_zeros
  · refine ⟨m, rfl, ?_⟩
    rw [OccursAt, ← List.drop_drop, drop_pairSymbols] at h
    rw [FirstFrameAt, Nat.add_comm, ← List.drop_drop, List.drop_drop, Nat.add_comm, ← List.drop_drop]
    cases hs : ps.drop m with
    | nil => simp [hs, pairSymbols, startHeader] at h
    | cons p ps₁ =>
        obtain ⟨c, d, hcd⟩ := List.length_eq_two.mp (length_symbols p)
        rw [hs, pairSymbols_cons, hcd] at h
        obtain ⟨-, h⟩ := List.cons_prefix_cons.mp h
        obtain ⟨q₁, ps₂, rfl, -, h⟩ := prefix_pairSymbols h
        obtain ⟨q₂, ps₃, rfl, -, h⟩ := prefix_pairSymbols h
        obtain ⟨q₃, ps₄, rfl, h₃, h⟩ := prefix_pairSymbols h
        obtain ⟨q₄, ps₅, rfl, h₄, h⟩ := prefix_pairSymbols h
        obtain ⟨q₅, ps₆, rfl, h₅, h⟩ := prefix_pairSymbols h
        obtain ⟨q₆, ps₇, rfl, h₆, h⟩ := prefix_pairSymbols h
        obtain ⟨q₇, ps₈, rfl, h₇, h⟩ := prefix_pairSymbols h
        obtain ⟨ps₉, rfl⟩ := eq_one_of_symbols_head h
        rw [eq_mark_of_symbols h₃, eq_one_of_symbols h₄, eq_one_of_symbols h₅,
          eq_one_of_symbols h₆, eq_one_of_symbols h₇]
        exact ⟨ps₉, rfl⟩

theorem head_of_firstFrameAt {ps : List Pair} {k : ℕ} (h : FirstFrameAt ps k) :
    ps[k]? = some .mark := by
  obtain ⟨rest, hrest⟩ := h
  have hhead : (ps.drop k)[0]? = some .mark := by rw [← hrest]; rfl
  simpa using hhead

theorem firstFrameAt_append {ps qs : List Pair} {k : ℕ} :
    FirstFrameAt (ps ++ qs) (ps.length + k) ↔ FirstFrameAt qs k := by
  rw [FirstFrameAt, FirstFrameAt, ← List.drop_drop, List.drop_left]

theorem firstFrameAt_bits {bits : Bits} {qs : List Pair} {k : ℕ}
    (h : FirstFrameAt (bits.map .bit ++ qs) k) :
    ∃ j, k = bits.length + j ∧ FirstFrameAt qs j := by
  have hmark := head_of_firstFrameAt h
  by_cases hk : k < bits.length
  · rw [List.getElem?_append_left (by simpa using hk), List.getElem?_map,
      List.getElem?_eq_getElem hk] at hmark
    simp at hmark
  · obtain ⟨j, rfl⟩ := Nat.exists_eq_add_of_le (Nat.not_lt.mp hk)
    refine ⟨j, rfl, ?_⟩
    have hlen : (bits.map Pair.bit).length = bits.length := List.length_map _
    rw [← hlen] at h
    exact firstFrameAt_append.mp h

theorem firstFrameAt_framePairs {f : ℕ × Byte} {qs : List Pair} {k : ℕ}
    (h : FirstFrameAt (framePairs f ++ qs) k) :
    (k = 0 ∧ lsbBits 5 f.1 = List.replicate 5 true) ∨
      ∃ j, k = (framePairs f).length + j ∧ FirstFrameAt qs j := by
  cases k with
  | zero =>
      refine Or.inl ⟨rfl, ?_⟩
      rw [FirstFrameAt, framePairs, List.map_append, List.drop_zero, List.cons_append] at h
      obtain ⟨-, h⟩ := List.cons_prefix_cons.mp h
      rw [List.append_assoc, ← List.map_replicate] at h
      have hbits := List.prefix_of_prefix_length_le h (List.prefix_append _ _) (by simp)
      have heq := List.IsPrefix.eq_of_length hbits (by simp)
      exact (List.map_injective_iff.mpr (fun a b hab => by simpa using hab) heq).symm
  | succ k =>
      apply Or.inr
      have htail : FirstFrameAt ((lsbBits 5 f.1 ++ lsbBits 8 f.2.toNat).map .bit ++ qs) k := h
      obtain ⟨j, rfl, hj⟩ := firstFrameAt_bits htail
      exact ⟨j, by simp only [framePairs, List.length_cons, List.length_map]; omega, hj⟩

theorem firstFrameAt_frames {fs : List (ℕ × Byte)} (hfs : ∀ f ∈ fs, f.1 < 31) {qs : List Pair}
    {k : ℕ} (h : FirstFrameAt ((fs.map framePairs).flatten ++ qs) k) :
    ∃ j, k = ((fs.map framePairs).flatten).length + j ∧ FirstFrameAt qs j := by
  induction fs generalizing k with
  | nil => exact ⟨k, by simp, by simpa using h⟩
  | cons f fs ih =>
      rw [List.map_cons, List.flatten_cons, List.append_assoc] at h
      rcases firstFrameAt_framePairs h with ⟨-, hidx⟩ | ⟨j, rfl, hj⟩
      · have hlt := hfs f (by simp)
        have hval := ofLsbBits_lsbBits (w := 5) (n := f.1) (by omega)
        rw [hidx] at hval
        have hmax : ofLsbBits (List.replicate 5 true) = 31 := by decide
        omega
      · obtain ⟨i, rfl, hi⟩ := ih (fun g hg => hfs g (List.mem_cons_of_mem _ hg)) hj
        exact ⟨i, by simp only [List.map_cons, List.flatten_cons, List.length_append]; omega, hi⟩

def indexedFrames (p : Packet) : List (ℕ × Byte) := (expectedIndexes p.extended).zip p.data

def paddingBits (p : Packet) : Bits := if p.data.length % 2 = 0 then [false, true] else []

def packetPairs (p : Packet) : List Pair :=
  preamble.map .bit ++ ((indexedFrames p).map framePairs).flatten ++
    (trailer ++ paddingBits p).map .bit

theorem canonicalFrames_eq (p : Packet) :
    canonicalFrames p.extended p.data =
      ((indexedFrames p).map (fun f => frame f.1 f.2)).flatten := by
  rw [canonicalFrames, indexedFrames, List.zip, List.map_zipWith]

theorem pairSymbols_frames (fs : List (ℕ × Byte)) :
    pairSymbols (fs.map framePairs).flatten = (fs.map (fun f => frame f.1 f.2)).flatten := by
  induction fs with
  | nil => rfl
  | cons f fs ih =>
      rw [List.map_cons, List.flatten_cons, pairSymbols_append, ih, pairSymbols_framePairs]
      rfl

theorem pairSymbols_packetPairs {p : Packet} (h : p.data.length ≤ fullLen p.extended) :
    pairSymbols (packetPairs p) = onAir p := by
  have hlen : (manchesterEncode preamble ++ canonicalFrames p.extended p.data ++
      manchesterEncode trailer).length = 116 + 28 * p.data.length := by
    simp only [List.length_append, length_canonicalFrames h, length_manchesterEncode]
    have hpre : preamble.length = 10 := by decide
    have htrail : trailer.length = 48 := by decide
    rw [hpre, htrail, frameBits]
    ring
  rw [packetPairs, pairSymbols_append, pairSymbols_append, pairSymbols_bits, pairSymbols_bits,
    pairSymbols_frames, ← canonicalFrames_eq, manchesterEncode_append, onAir, padToByte, hlen,
    paddingBits]
  by_cases heven : p.data.length % 2 = 0
  · have hrem : (116 + 28 * p.data.length) % 8 = 4 := by omega
    simp only [heven, if_true, hrem, ← List.append_assoc]
    rfl
  · have hrem : (116 + 28 * p.data.length) % 8 = 0 := by omega
    simp [heven, hrem]

/-- In a packet followed by more pairs the only first frame is its own. -/
theorem firstFrameAt_packetPairs {p : Packet} {qs : List Pair} {k : ℕ}
    (h : FirstFrameAt (packetPairs p ++ qs) k) :
    k = 10 ∨ ∃ j, k = (packetPairs p).length + j ∧ FirstFrameAt qs j := by
  have hassoc : packetPairs p ++ qs = preamble.map .bit ++
      (((indexedFrames p).map framePairs).flatten ++
        ((trailer ++ paddingBits p).map .bit ++ qs)) := by
    simp only [packetPairs, List.append_assoc]
  have hlen : (packetPairs p).length = preamble.length +
      (((indexedFrames p).map framePairs).flatten.length + (trailer ++ paddingBits p).length) := by
    simp only [packetPairs, List.length_append, List.length_map]
    ring
  rw [hassoc] at h
  obtain ⟨j, rfl, hj⟩ := firstFrameAt_bits h
  cases hdata : p.data with
  | nil => exact absurd hdata p.data_ne
  | cons b rest =>
      have hfs : indexedFrames p = (31, b) ::
          ((List.range (if p.extended then 31 else 12)).reverse).zip rest := by
        rw [indexedFrames, hdata]
        rfl
      have hsmall : ∀ f ∈ ((List.range (if p.extended then 31 else 12)).reverse).zip rest,
          f.1 < 31 := by
        intro f hf
        have hmem := (List.of_mem_zip hf).1
        rw [List.mem_reverse, List.mem_range] at hmem
        split_ifs at hmem <;> omega
      rw [hfs, List.map_cons, List.flatten_cons, List.append_assoc] at hj
      rcases firstFrameAt_framePairs hj with ⟨rfl, -⟩ | ⟨j₁, rfl, hj₁⟩
      · exact Or.inl rfl
      · obtain ⟨j₂, rfl, hj₂⟩ := firstFrameAt_frames hsmall hj₁
        obtain ⟨j₃, rfl, hj₃⟩ := firstFrameAt_bits hj₂
        refine Or.inr ⟨j₃, ?_, hj₃⟩
        rw [hlen, hfs, List.map_cons, List.flatten_cons]
        simp only [List.length_append]
        ring

def streamPairs (ps : List Packet) : List Pair := (ps.map packetPairs).flatten

def stream (ps : List Packet) : Bits := (ps.map onAir).flatten

def headerPositions : List Packet → List ℕ
  | [] => []
  | p :: ps => 15 :: (headerPositions ps).map ((onAir p).length + ·)

def Fits (p : Packet) : Prop := p.data.length ≤ fullLen p.extended

theorem pairSymbols_streamPairs {ps : List Packet} (h : ∀ p ∈ ps, Fits p) :
    pairSymbols (streamPairs ps) = stream ps := by
  induction ps with
  | nil => rfl
  | cons p ps ih =>
      have htail := ih (fun q hq => h q (List.mem_cons_of_mem _ hq))
      simp only [streamPairs, stream, List.map_cons, List.flatten_cons] at htail ⊢
      rw [pairSymbols_append, pairSymbols_packetPairs (h p (by simp)), htail]

theorem firstFrameAt_streamPairs_ge {ps : List Packet} {k : ℕ} (h : FirstFrameAt (streamPairs ps) k) :
    10 ≤ k := by
  cases ps with
  | nil =>
      have hmark := head_of_firstFrameAt h
      simp [streamPairs] at hmark
  | cons p ps =>
      have hassoc : streamPairs (p :: ps) = preamble.map .bit ++
          (((indexedFrames p).map framePairs).flatten ++
            ((trailer ++ paddingBits p).map .bit ++ streamPairs ps)) := by
        simp only [streamPairs, packetPairs, List.map_cons, List.flatten_cons, List.append_assoc]
      rw [hassoc] at h
      obtain ⟨j, rfl, -⟩ := firstFrameAt_bits h
      exact Nat.le_add_right 10 j

theorem occursAt_append {pat pre text : Bits} {i : ℕ} :
    OccursAt pat (pre ++ text) (pre.length + i) ↔ OccursAt pat text i := by
  rw [OccursAt, OccursAt, ← List.drop_drop, List.drop_left]

theorem header_onAir {p : Packet} (rest : Bits) (h : Fits p) :
    OccursAt startHeader (onAir p ++ rest) 15 := by
  cases hdata : p.data with
  | nil => exact absurd hdata p.data_ne
  | cons b data =>
      have hpairs : packetPairs p = preamble.map .bit ++ (Pair.mark :: List.replicate 5 (.bit true) ++
          ((lsbBits 8 b.toNat).map .bit ++
            ((((List.range (if p.extended then 31 else 12)).reverse.zip data).map framePairs).flatten ++
              (trailer ++ paddingBits p).map .bit))) := by
        rw [packetPairs, indexedFrames, hdata, expectedIndexes, List.zip_cons_cons, List.map_cons,
          List.flatten_cons, framePairs, List.map_append]
        simp only [List.append_assoc, List.cons_append]
        rfl
      rw [← pairSymbols_packetPairs h, hpairs, pairSymbols_append, List.append_assoc,
        pairSymbols_append, pairSymbols_bits, OccursAt]
      exact ⟨_, rfl⟩

theorem occursAt_stream_iff {ps : List Packet} (h : ∀ p ∈ ps, Fits p) (i : ℕ) :
    OccursAt startHeader (stream ps) i ↔ i ∈ headerPositions ps := by
  induction ps generalizing i with
  | nil => simp [stream, headerPositions, OccursAt, startHeader]
  | cons p ps ih =>
      have htail : ∀ q ∈ ps, Fits q := fun q hq => h q (List.mem_cons_of_mem _ hq)
      have hcons : stream (p :: ps) = onAir p ++ stream ps := rfl
      rw [headerPositions, List.mem_cons, List.mem_map]
      constructor
      · intro hocc
        rw [← pairSymbols_streamPairs h] at hocc
        obtain ⟨m, rfl, hm⟩ := header_in_pairs hocc
        rcases firstFrameAt_packetPairs hm with hten | ⟨j, hj, hrest⟩
        · exact Or.inl (by omega)
        · have hge := firstFrameAt_streamPairs_ge hrest
          have hlen : (onAir p).length = 2 * (packetPairs p).length := by
            rw [← pairSymbols_packetPairs (h p (by simp)), length_pairSymbols]
          have hi : 2 * m + 1 = (onAir p).length + (2 * m + 1 - (onAir p).length) := by omega
          refine Or.inr ⟨2 * m + 1 - (onAir p).length, (ih htail _).mp ?_, hi.symm⟩
          rw [pairSymbols_streamPairs h, hcons, hi] at hocc
          exact occursAt_append.mp hocc
      · rintro (rfl | ⟨j, hj, rfl⟩)
        · exact header_onAir _ (h p (by simp))
        · rw [hcons]
          exact occursAt_append.mpr ((ih htail j).mpr hj)

theorem length_onAir {p : Packet} (h : Fits p) : 20 + frameBits * p.data.length ≤ (onAir p).length := by
  have hpre := (prefix_padToByte (manchesterEncode preamble ++
    canonicalFrames p.extended p.data ++ manchesterEncode trailer)).length_le
  simp only [List.length_append, length_canonicalFrames h, length_manchesterEncode] at hpre
  have hpre : preamble.length = 10 := by decide
  rw [onAir]
  omega

theorem headerPositions_ge {ps : List Packet} {i : ℕ} (h : i ∈ headerPositions ps) : 15 ≤ i := by
  induction ps generalizing i with
  | nil => simp [headerPositions] at h
  | cons p ps ih =>
      rcases List.mem_cons.mp h with rfl | hmem
      · exact le_rfl
      · obtain ⟨j, hj, rfl⟩ := List.mem_map.mp hmem
        have := ih hj
        omega

theorem headerPositions_separated {ps : List Packet} (h : ∀ p ∈ ps, Fits p) :
    (headerPositions ps).Pairwise (fun i j => i + startHeader.length ≤ j) := by
  induction ps with
  | nil => exact List.Pairwise.nil
  | cons p ps ih =>
      have htail := ih (fun q hq => h q (List.mem_cons_of_mem _ hq))
      refine List.pairwise_cons.mpr ⟨?_, ?_⟩
      · intro i hi
        obtain ⟨j, hj, rfl⟩ := List.mem_map.mp hi
        have hge := headerPositions_ge hj
        have hlen := length_onAir (h p (by simp))
        have hheader : startHeader.length = 16 := rfl
        omega
      · refine List.pairwise_map.mpr (htail.imp ?_)
        intro i j hij
        omega

theorem length_headerPositions (ps : List Packet) : (headerPositions ps).length = ps.length := by
  induction ps with
  | nil => rfl
  | cons p ps ih => simp [headerPositions, ih]

theorem length_le_stream {ps : List Packet} (h : ∀ p ∈ ps, Fits p) : ps.length ≤ (stream ps).length := by
  induction ps with
  | nil => exact Nat.zero_le _
  | cons p ps ih =>
      have htail := ih (fun q hq => h q (List.mem_cons_of_mem _ hq))
      have hlen := length_onAir (h p (by simp))
      simp only [stream, List.map_cons, List.flatten_cons, List.length_append,
        List.length_cons] at htail ⊢
      omega

theorem findAll_stream {ps : List Packet} (h : ∀ p ∈ ps, Fits p) :
    findAll startHeader (stream ps) ((stream ps).length + 1) 0 = headerPositions ps := by
  refine findAll_eq (by decide) (fun i _ => occursAt_stream_iff h i) (headerPositions_separated h)
    (fun i _ => Nat.zero_le i) ?_
  rw [length_headerPositions]
  have := length_le_stream h
  omega

theorem occursAt_invert {pat text : Bits} {i : ℕ} :
    OccursAt pat (invertBits text) i ↔ OccursAt (invertBits pat) text i := by
  have hmap : ∀ a b : Bits, a <+: b → invertBits a <+: invertBits b := by
    rintro a b ⟨rest, rfl⟩
    exact ⟨invertBits rest, (invertBits_append a rest).symm⟩
  have hdrop : (invertBits text).drop i = invertBits (text.drop i) := List.map_drop.symm
  rw [OccursAt, OccursAt, hdrop]
  constructor
  · intro h
    simpa using hmap _ _ h
  · intro h
    simpa using hmap _ _ h

/-- The symbols up to the end of the first index leave no room for an inverted header. -/
theorem no_inverted_header {ps : List Packet} (hne : ps ≠ []) (h : ∀ p ∈ ps, Fits p) {i : ℕ}
    (hi : i ≤ 15) : ¬ OccursAt startHeaderInv (stream ps) i := by
  intro hocc
  obtain ⟨p, rest, rfl⟩ := List.exists_cons_of_ne_nil hne
  have hpre : (stream (p :: rest)).take 31 = (manchesterEncode preamble).take 15 ++ startHeader := by
    obtain ⟨tail, htail⟩ := header_onAir (stream rest) (h p (by simp))
    have hstream : stream (p :: rest) = onAir p ++ stream rest := rfl
    have hfifteen : (stream (p :: rest)).take 15 = (manchesterEncode preamble).take 15 := by
      obtain ⟨pad, hpad⟩ := prefix_padToByte (manchesterEncode preamble ++
        canonicalFrames p.extended p.data ++ manchesterEncode trailer)
      rw [hstream, onAir, ← hpad]
      rfl
    have hadd : (31 : ℕ) = 15 + 16 := rfl
    rw [hadd, List.take_add, hfifteen, hstream, ← htail]
    rfl
  have hshort : startHeaderInv <+: ((stream (p :: rest)).take 31).drop i := by
    rw [List.drop_take, List.prefix_take_iff]
    refine ⟨hocc, ?_⟩
    have hlen : startHeaderInv.length = 16 := rfl
    omega
  rw [hpre] at hshort
  interval_cases i <;> revert hshort <;> decide

/-- In either polarity the headers are found where the normal polarity has them, when it has
one before any inverted one. -/
theorem findHeaders_of_first {bits : Bits} {n : ℕ} (hheader : find startHeader bits 0 = some n)
    (hlate : ∀ j, find startHeaderInv bits 0 = some j → n < j) (invert : Bool) :
    findHeaders (if invert then invertBits bits else bits) =
      (bits, findAll startHeader bits (bits.length + 1) 0) := by
  have hswap : ∀ pat, find pat (invertBits bits) 0 = find (invertBits pat) bits 0 := by
    intro pat
    cases hf : find (invertBits pat) bits 0 with
    | none =>
        apply find_of_absent
        intro i _ hocc
        have habs := index_eq_none (Option.map_eq_none_iff.mp hf) i
        exact habs (occursAt_invert.mp hocc)
    | some n =>
        obtain ⟨hle, hocc, hfirst⟩ := find_eq_some hf
        exact find_of_first hle (occursAt_invert.mpr hocc)
          (fun i hi hlt hocc' => hfirst i hi hlt (occursAt_invert.mp hocc'))
  cases invert with
  | false =>
      have hnormal : headerInverted bits = false := by
        rw [headerInverted, hheader]
        cases hf : find startHeaderInv bits 0 with
        | none => rfl
        | some j =>
            have := hlate j hf
            simp
            omega
      simp [findHeaders, hnormal]
  | true =>
      have hinverted : headerInverted (invertBits bits) = true := by
        have hback : invertBits startHeaderInv = startHeader := rfl
        have hfwd : invertBits startHeader = startHeaderInv := rfl
        rw [headerInverted, hswap, hswap, hback, hfwd, hheader]
        cases hf : find startHeaderInv bits 0 with
        | none => rfl
        | some j => simpa using hlate j hf
      simp [findHeaders, hinverted]

theorem findHeaders_stream {ps : List Packet} (hne : ps ≠ []) (h : ∀ p ∈ ps, Fits p) (invert : Bool) :
    findHeaders (if invert then invertBits (stream ps) else stream ps) =
      (stream ps, headerPositions ps) := by
  have hheader : find startHeader (stream ps) 0 = some 15 := by
    obtain ⟨p, rest, rfl⟩ := List.exists_cons_of_ne_nil hne
    apply find_of_first (Nat.zero_le _) ((occursAt_stream_iff h 15).mpr (by simp [headerPositions]))
    intro i _ hi hocc
    have := headerPositions_ge ((occursAt_stream_iff h i).mp hocc)
    omega
  have hlate : ∀ j, find startHeaderInv (stream ps) 0 = some j → 15 < j := by
    intro j hj
    by_contra hle
    exact no_inverted_header hne h (Nat.not_lt.mp hle) (find_eq_some hj).2.1
  rw [findHeaders_of_first hheader hlate, findAll_stream h]

/-- The loop reads back frames with decreasing indexes and stops behind them: at index 0,
or where no frame follows. -/
theorem readFrames_frames {fs : List (ℕ × Byte)} (hlt : ∀ f ∈ fs, f.1 < 32)
    (hdec : (fs.map Prod.fst).Pairwise (· > ·)) {tail : Bits}
    (htail : (fs.map Prod.fst).getLast? = some 0 ∨ readFrame tail = none)
    {fuel : ℕ} (hfuel : fs.length < fuel) :
    readFrames fuel ((fs.map (fun f => frame f.1 f.2)).flatten ++ tail) = fs := by
  induction fs generalizing fuel with
  | nil =>
      have hnone : readFrame tail = none := by simpa using htail
      cases fuel <;> simp [readFrames, hnone]
  | cons f fs ih =>
      obtain ⟨idx, b⟩ := f
      obtain ⟨fuel, rfl⟩ := Nat.exists_eq_succ_of_ne_zero (Nat.ne_of_gt (Nat.zero_lt_of_lt hfuel))
      rw [List.map_cons, List.pairwise_cons] at hdec
      have hread : readFrame (frame idx b ++ ((fs.map (fun f => frame f.1 f.2)).flatten ++ tail)) =
          some (idx, b) := readFrame_frame (hlt (idx, b) (by simp)) b _
      rw [List.map_cons, List.flatten_cons, List.append_assoc]
      simp only [readFrames, hread]
      by_cases h0 : idx = 0
      · cases fs with
        | nil => simp [h0]
        | cons g fs =>
            have := hdec.1 g.1 (by simp)
            simp only at this
            omega
      · have hstop : (fs.map Prod.fst).getLast? = some 0 ∨ readFrame tail = none := by
          refine htail.imp_left fun hlast => ?_
          cases fs with
          | nil => exact absurd (Option.some.inj hlast) h0
          | cons g fs => simpa using hlast
        have hrest : readFrames fuel ((fs.map (fun f => frame f.1 f.2)).flatten ++ tail) = fs :=
          ih (fun g hg => hlt g (List.mem_cons_of_mem _ hg)) hdec.2 hstop (by simpa using hfuel)
        rw [if_neg h0, List.drop_left' (length_frame idx b), hrest]

theorem expectedIndexes_decreasing (extended : Bool) :
    (expectedIndexes extended).Pairwise (· > ·) := by
  cases extended <;> decide

theorem last_expectedIndex (extended : Bool) {n : ℕ} (h : n ≤ fullLen extended) :
    ((expectedIndexes extended).take n).getLast? = some 0 ↔ n = fullLen extended := by
  cases extended with
  | false =>
      have hn : n ≤ 13 := h
      interval_cases n <;> decide
  | true =>
      have hn : n ≤ 32 := h
      interval_cases n <;> decide

theorem indexedFrames_fst (p : Packet) :
    (indexedFrames p).map Prod.fst = (expectedIndexes p.extended).take p.data.length := by
  rw [indexedFrames, List.zip, ← zipWith_take_left]
  exact List.map_fst_zip (by simp)

theorem indexedFrames_snd {p : Packet} (h : Fits p) :
    (indexedFrames p).map Prod.snd = p.data := by
  apply List.map_snd_zip
  rw [length_expectedIndexes]
  exact h

theorem readFrame_trailer (l : Bits) : readFrame (manchesterEncode trailer ++ l) = none := by
  apply if_neg
  change ¬ [true, false] = [true, true]
  decide

/-- The frames of a packet are read back from where they stand, if the last of them has index 0
or no frame follows. -/
theorem decodeFrames_of_drop {p : Packet} (h : Fits p) {bits tail : Bits} {start : ℕ}
    (hdrop : bits.drop start = canonicalFrames p.extended p.data ++ tail)
    (htail : p.data.length = fullLen p.extended ∨ readFrame tail = none) :
    decodeFrames bits start = (p.data, (expectedIndexes p.extended).take p.data.length) := by
  have hcount : (indexedFrames p).length = p.data.length := by
    rw [← List.length_map (f := Prod.snd), indexedFrames_snd h]
  have hlt : ∀ f ∈ indexedFrames p, f.1 < 32 :=
    fun f hf => expectedIndexes_lt (List.of_mem_zip hf).1
  have hdec : ((indexedFrames p).map Prod.fst).Pairwise (· > ·) := by
    rw [indexedFrames_fst]
    exact (expectedIndexes_decreasing _).sublist (List.take_sublist _ _)
  have hend : ((indexedFrames p).map Prod.fst).getLast? = some 0 ∨ readFrame tail = none := by
    rw [indexedFrames_fst]
    exact htail.imp_left (last_expectedIndex p.extended h).mpr
  have hfuel : (indexedFrames p).length < bits.length := by
    have hlen := congrArg List.length hdrop
    have hpos : 0 < p.data.length := List.length_pos_of_ne_nil p.data_ne
    rw [List.length_drop, List.length_append, length_canonicalFrames h, frameBits] at hlen
    rw [hcount]
    omega
  rw [decodeFrames, hdrop, canonicalFrames_eq, readFrames_frames hlt hdec hend hfuel,
    indexedFrames_fst, indexedFrames_snd h]

/-- Behind its header a packet reads back as its own frames. -/
theorem decodeFrames_packet {p : Packet} (h : Fits p) (pre rest : Bits) :
    decodeFrames (pre ++ (onAir p ++ rest)) (pre.length + 15 + markerOffset) =
      (p.data, (expectedIndexes p.extended).take p.data.length) := by
  obtain ⟨pad, hpad⟩ := prefix_padToByte (manchesterEncode preamble ++
    canonicalFrames p.extended p.data ++ manchesterEncode trailer)
  have hdrop : (pre ++ (onAir p ++ rest)).drop (pre.length + 15 + markerOffset) =
      canonicalFrames p.extended p.data ++ (manchesterEncode trailer ++ (pad ++ rest)) := by
    rw [Nat.add_assoc, ← List.drop_drop, List.drop_left, onAir, ← hpad]
    simp only [List.append_assoc]
    exact List.drop_left' (by decide)
  exact decodeFrames_of_drop h hdrop (Or.inr (readFrame_trailer (pad ++ rest)))

/-- What the round trip says of one packet: the bytes that were sent, verified
counters, and completeness as the number of bytes has it. -/
structure ReadBack (sent received : Packet) : Prop where
  data : received.data = sent.data
  index_ok : received.index_ok = some true
  complete : received.complete = true ↔ sent.data.length = fullLen sent.extended

/-- Frames with the bytes and counters of a packet are parsed as that packet. -/
theorem parseAt_of_decodeFrames {p : Packet} (h : Fits p) {bits : Bits} (ts : Option Time)
    {minBytes pos : ℕ} (hmin : minBytes ≤ p.data.length)
    (hdecode : decodeFrames bits (pos + markerOffset) =
      (p.data, (expectedIndexes p.extended).take p.data.length)) :
    ∃ q, parseAt bits ts minBytes pos = some q ∧ ReadBack p q := by
  have hcond : p.data ≠ [] ∧ minBytes ≤ p.data.length := ⟨p.data_ne, hmin⟩
  have hlen : ((expectedIndexes p.extended).take p.data.length).length = p.data.length := by
    rw [List.length_take, length_expectedIndexes]
    exact Nat.min_eq_left h
  have hindex : indexesOk p.data ((expectedIndexes p.extended).take p.data.length) = true := by
    have hne : (expectedIndexes p.extended).take p.data.length ≠ [] := by
      intro hnil
      rw [hnil] at hlen
      exact p.data_ne (List.length_eq_zero_iff.mp hlen.symm)
    rw [indexesOk, if_neg (by simp [hne, p.data_ne]), hlen]
    exact decide_eq_true rfl
  have hparse : parseAt bits ts minBytes pos = some
      { data := p.data, data_ne := p.data_ne
        bits := (bits.drop pos).take (markerOffset + frameBits * p.data.length)
        timestamp := ts
        complete := decide (((expectedIndexes p.extended).take p.data.length).getLast? = some 0)
        index_ok := some (indexesOk p.data ((expectedIndexes p.extended).take p.data.length)) } := by
    rw [parseAt, hdecode]
    exact dif_pos hcond
  refine ⟨_, hparse, rfl, congrArg some hindex, ?_⟩
  rw [decide_eq_true_iff]
  exact last_expectedIndex p.extended h

theorem parseAt_packet {p : Packet} (h : Fits p) (ts : Option Time) {minBytes : ℕ}
    (hmin : minBytes ≤ p.data.length) (pre rest : Bits) :
    ∃ q, parseAt (pre ++ (onAir p ++ rest)) ts minBytes (pre.length + 15) = some q ∧
      ReadBack p q :=
  parseAt_of_decodeFrames h ts hmin (decodeFrames_packet h pre rest)

theorem parseAt_stream {ps : List Packet} (h : ∀ p ∈ ps, Fits p) (ts : Option Time) {minBytes : ℕ}
    (hmin : ∀ p ∈ ps, minBytes ≤ p.data.length) (pre : Bits) :
    List.Forall₂ ReadBack ps
      (((headerPositions ps).map (pre.length + ·)).filterMap
        (parseAt (pre ++ stream ps) ts minBytes)) := by
  induction ps generalizing pre with
  | nil => exact List.Forall₂.nil
  | cons p ps ih =>
      obtain ⟨q, hq, hback⟩ := parseAt_packet (h p (by simp)) ts (hmin p (by simp)) pre (stream ps)
      have htail := ih (fun r hr => h r (List.mem_cons_of_mem _ hr))
        (fun r hr => hmin r (List.mem_cons_of_mem _ hr)) (pre ++ onAir p)
      have hshift : (headerPositions ps).map ((pre ++ onAir p).length + ·) =
          ((headerPositions ps).map ((onAir p).length + ·)).map (pre.length + ·) := by
        rw [List.map_map]
        apply List.map_congr_left
        intro i _
        simp only [List.length_append, Function.comp_apply]
        ring
      rw [hshift, List.append_assoc] at htail
      have hstream : stream (p :: ps) = onAir p ++ stream ps := rfl
      rw [headerPositions, List.map_cons, hstream, List.filterMap_cons_some hq]
      exact List.Forall₂.cons hback htail

def encodeAll (invert : Bool) (ps : List Packet) : Except Char Bits :=
  (ps.mapM (fun p : Packet => p.toBits invert)).map List.flatten

theorem encodeAll_eq {ps : List Packet} (h : ∀ p ∈ ps, Fits p) (invert : Bool) :
    encodeAll invert ps = .ok (if invert then invertBits (stream ps) else stream ps) := by
  have hmap : ps.mapM (fun p : Packet => p.toBits invert) =
      Except.ok (ps.map (fun p => if invert then invertBits (onAir p) else onAir p)) := by
    induction ps with
    | nil => rfl
    | cons p ps ih =>
        rw [List.mapM_cons, toBits_eq (h p (by simp)), ih (fun q hq => h q (List.mem_cons_of_mem _ hq))]
        rfl
  rw [encodeAll, hmap]
  cases invert with
  | false => rfl
  | true => simp [Except.map, stream, invertBits, List.map_flatten, Function.comp_def]

/-- For a nonempty list of packets of 4 to 13 bytes (standard) or 4 to 32 bytes
(extended) sent in either polarity, parsing the concatenation gives them back. -/
theorem parseBits_roundTrip (ps : List Packet) (hne : ps ≠ [])
    (hsize : ∀ p ∈ ps, 4 ≤ p.data.length ∧ p.data.length ≤ (if p.extended then 32 else 13))
    (invert : Bool) (ts : Option Time) :
    ∃ line, encodeAll invert ps = .ok line ∧
      List.Forall₂ (fun p q => q.data = p.data ∧ q.index_ok = some true ∧
        (q.complete = true ↔ p.data.length = if p.extended then 32 else 13))
        ps (parseBits line ts 4) := by
  have hfits : ∀ p ∈ ps, Fits p := fun p hp => (hsize p hp).2
  refine ⟨_, encodeAll_eq hfits invert, ?_⟩
  have hback := parseAt_stream hfits ts (fun p hp => (hsize p hp).1) []
  rw [parseBits, findHeaders_stream hne hfits]
  simp only [List.length_nil, Nat.zero_add, List.map_id', List.nil_append] at hback
  exact hback.imp (fun _ _ h => ⟨h.data, h.index_ok, h.complete⟩)

/-- A truncated standard packet and a truncated extended one. -/
def truncatedPair : List Packet :=
  [.ofBytes 0x0F#8 [0x07#8, 0x93#8, 0x2B#8], .ofBytes 0x1F#8 [0x07#8, 0x93#8, 0x2B#8, 0x52#8]]

theorem parseBits_roundTrip_truncatedPair :
    ∃ line, encodeAll true truncatedPair = .ok line ∧
      List.Forall₂ (fun p q => q.data = p.data ∧ q.index_ok = some true ∧
        (q.complete = true ↔ p.data.length = if p.extended then 32 else 13))
        truncatedPair (parseBits line none 4) :=
  parseBits_roundTrip truncatedPair (by simp [truncatedPair]) (by decide) true none

end InsteonRf
