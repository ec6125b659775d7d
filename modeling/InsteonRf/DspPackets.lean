import InsteonRf.DspBursts
import InsteonRf.FramingRoundTrip

/-!
# One burst for each packet

A burst whose symbols begin with the head of a packet is cut eight symbols behind its last frame,
where no other header fits. So it parses as that packet and nothing else, and a segment in which
every sync is a packet's own or lies inside of one is read as the packets that were sent.
-/
namespace InsteonRf.Dsp
open LsbBits StringSearch Greedy

/-- What a receiver that has locked to a packet reads, from the preamble to the last frame. -/
def heldHead (p : Packet) : Bits :=
  (List.replicate syncPreambleCells preambleCellLogical).flatten ++
    canonicalFrames p.extended p.data

/-- All frames of its kind were sent. -/
def Whole (p : Packet) : Prop := p.data.length = fullLen p.extended

theorem Whole.fits {p : Packet} (h : Whole p) : Fits p := le_of_eq h

def headPairs (p : Packet) : List Pair :=
  [false, true, false, true, false, true, false, true].map .bit ++
    ((indexedFrames p).map framePairs).flatten

theorem pairSymbols_headPairs (p : Packet) : pairSymbols (headPairs p) = heldHead p := by
  rw [headPairs, pairSymbols_append, pairSymbols_bits, pairSymbols_frames, ← canonicalFrames_eq,
    heldHead]
  rfl

theorem length_heldHead {p : Packet} (h : Fits p) :
    (heldHead p).length = 16 + frameBits * p.data.length := by
  rw [heldHead, List.length_append, length_canonicalFrames h]
  rfl

theorem heldHead_template (p : Packet) : ∃ rest, heldHead p = syncTemplate ++ rest := by
  cases hdata : p.data with
  | nil => exact absurd hdata p.data_ne
  | cons b data =>
      refine ⟨[true] ++ manchesterEncode (lsbBits 8 b.toNat) ++
        (((List.range (if p.extended then 31 else 12)).reverse.zip data).map
          (fun f => frame f.1 f.2)).flatten, ?_⟩
      rw [heldHead, canonicalFrames_eq, indexedFrames, hdata, expectedIndexes, List.zip_cons_cons,
        List.map_cons, List.flatten_cons, frame, manchesterEncode_append]
      simp only [List.append_assoc]
      rfl

theorem no_pair_of_ones (bits : Bits) (m : ℕ) :
    ¬ [true, true] <+: pairSymbols ((bits.map Pair.bit).drop m) := by
  intro hones
  obtain ⟨p, rest, hp, hsymbols, -⟩ := prefix_pairSymbols hones
  have hmem : p ∈ bits.map Pair.bit := List.mem_of_mem_drop (by rw [hp]; simp)
  obtain ⟨b, -, rfl⟩ := List.mem_map.mp hmem
  exact absurd (eq_mark_of_symbols hsymbols) (by simp)

/-- Three ones in a row hold a pair of ones, which is no Manchester bit. -/
theorem no_three_ones (bits : Bits) (k : ℕ) :
    ¬ OccursAt [true, true, true] (manchesterEncode bits) k := by
  intro h
  rw [← pairSymbols_bits] at h
  obtain ⟨m, rfl | rfl⟩ : ∃ m, k = 2 * m ∨ k = 2 * m + 1 := ⟨k / 2, by omega⟩
  · rw [OccursAt, drop_pairSymbols] at h
    exact no_pair_of_ones bits m ((List.prefix_append [true, true] [true]).trans h)
  · rw [OccursAt, ← List.drop_drop, drop_pairSymbols] at h
    cases hs : (bits.map Pair.bit).drop m with
    | nil => simp [hs, pairSymbols] at h
    | cons p ps =>
        obtain ⟨c, d, hcd⟩ := List.length_eq_two.mp (length_symbols p)
        rw [hs, pairSymbols_cons, hcd] at h
        obtain ⟨-, hones⟩ := List.cons_prefix_cons.mp h
        have hnext : ps = (bits.map Pair.bit).drop (m + 1) := by
          rw [← List.drop_drop, hs]
          rfl
        rw [hnext] at hones
        exact no_pair_of_ones bits (m + 1) hones

/-- The last thing that is read of a packet is the Manchester code of its last frame. -/
theorem heldHead_last {p : Packet} (h : Fits p) :
    ∃ front bits, heldHead p = front ++ manchesterEncode bits ∧
      front.length + 26 = 16 + frameBits * p.data.length := by
  have hne : indexedFrames p ≠ [] := by
    intro hnil
    have hdata := indexedFrames_snd h
    rw [hnil] at hdata
    exact p.data_ne hdata.symm
  obtain ⟨frames, last, hlast⟩ := (List.eq_nil_or_concat (indexedFrames p)).resolve_left hne
  rw [List.concat_eq_append] at hlast
  have hcount : frames.length + 1 = p.data.length := by
    rw [← indexedFrames_snd h, List.length_map, hlast, List.length_append, List.length_singleton]
  refine ⟨(List.replicate syncPreambleCells preambleCellLogical).flatten ++
    ((frames.map (fun f => frame f.1 f.2)).flatten ++ [true, true]),
    lsbBits 5 last.1 ++ lsbBits 8 last.2.toNat, ?_, ?_⟩
  · rw [heldHead, canonicalFrames_eq, hlast, List.map_append, List.flatten_append]
    simp only [List.map_cons, List.map_nil, List.flatten_cons, List.flatten_nil, List.append_nil,
      List.append_assoc, frame]
  · rw [List.length_append, List.length_append, length_flatten_frames, ← hcount]
    have hcells : ((List.replicate syncPreambleCells preambleCellLogical).flatten).length = 16 := rfl
    rw [hcells, List.length_cons, List.length_singleton, frameBits]
    omega

/-- In the head of a packet only its first frame carries index 31. -/
theorem firstFrameAt_headPairs {p : Packet} {k : ℕ} (h : FirstFrameAt (headPairs p) k) : k = 8 := by
  obtain ⟨j, rfl, hframes⟩ := firstFrameAt_bits h
  have hlong : FirstFrameAt (packetPairs p ++ []) ((preamble.map Pair.bit).length + j) := by
    rw [packetPairs, List.append_nil, List.append_assoc]
    refine firstFrameAt_append.mpr (List.IsPrefix.trans hframes ?_)
    exact ((List.prefix_append _ _).drop j)
  rcases firstFrameAt_packetPairs hlong with hten | ⟨j', -, hnil⟩
  · have hsize : (preamble.map Pair.bit).length = 10 := by decide
    have height : [false, true, false, true, false, true, false, true].length = 8 := rfl
    omega
  · have hmark := head_of_firstFrameAt hnil
    simp at hmark

/-- Between the head of a packet and the eight symbols behind it, a start header stands only where
the packet begins. -/
theorem header_heldHead {p : Packet} (h : Fits p) {tail : Bits} (htail : tail.length ≤ 8) (i : ℕ) :
    OccursAt startHeader (heldHead p ++ tail) i ↔ i = headerSymbolInTemplate := by
  have hlen := length_heldHead h
  constructor
  · intro hocc
    by_cases hin : i + startHeader.length ≤ (heldHead p).length
    · rw [occursAt_append_left hin, ← pairSymbols_headPairs] at hocc
      obtain ⟨m, rfl, hfirst⟩ := header_in_pairs hocc
      have height := firstFrameAt_headPairs hfirst
      have heleven : headerSymbolInTemplate = 11 := rfl
      omega
    · -- a header that sticks out would put three ones into the code of the last frame
      exfalso
      obtain ⟨front, bits, hlast, hfront⟩ := heldHead_last h
      have hsize : startHeader.length = 16 := rfl
      have hend := hocc.bound (by decide)
      rw [List.length_append] at hend
      have hones : OccursAt [true, true, true] (heldHead p ++ tail) (i + 4) := by
        rw [OccursAt, ← List.drop_drop]
        exact List.IsPrefix.trans (by decide) (hocc.drop 4)
      rw [occursAt_append_left (by simp only [List.length_cons, List.length_nil]; omega), hlast]
        at hones
      obtain ⟨k, hk⟩ := Nat.exists_eq_add_of_le (show front.length ≤ i + 4 by omega)
      rw [hk, occursAt_append] at hones
      exact no_three_ones bits k hones
  · rintro rfl
    obtain ⟨rest, hrest⟩ := heldHead_template p
    rw [hrest, List.append_assoc]
    exact (occursAt_append_left (by decide)).mpr (by decide)

theorem decodeFrames_heldHead {p : Packet} (h : Whole p) (behind : Bits) :
    decodeFrames (heldHead p ++ behind) (headerSymbolInTemplate + markerOffset) =
      (p.data, (expectedIndexes p.extended).take p.data.length) := by
  have hdrop : (heldHead p ++ behind).drop (headerSymbolInTemplate + markerOffset) =
      canonicalFrames p.extended p.data ++ behind := by
    rw [heldHead, List.append_assoc]
    exact List.drop_left' rfl
  exact decodeFrames_of_drop h.fits hdrop (Or.inl h)

/-- The symbols on the air, in the polarity that the sync was found in. -/
def inPolarity (polarity : ℤ) (logical : Bits) : Bits :=
  if polarity < 0 then invertBits logical else logical

theorem length_inPolarity (polarity : ℤ) (logical : Bits) :
    (inPolarity polarity logical).length = logical.length := by
  unfold inPolarity
  split_ifs
  · exact length_invertBits logical
  · rfl

theorem packetSymbols_heldHead {p : Packet} (h : Whole p) (behind : Bits) (polarity : ℤ) :
    packetSymbols (inPolarity polarity (heldHead p ++ behind)) polarity =
      (heldHead p).length + 8 := by
  have hlogical : (if polarity < 0 then
      invertBits (inPolarity polarity (heldHead p ++ behind))
      else inPolarity polarity (heldHead p ++ behind)) = heldHead p ++ behind := by
    unfold inPolarity
    split_ifs
    · exact invertBits_invertBits _
    · rfl
  have hframes : (if p.data ≠ [] ∧ ¬ isExtended (firstByte p.data) then stdLen else extLen) =
      p.data.length := by
    have hwhole : p.data.length = if isExtended (firstByte p.data) then extLen else stdLen := h
    rw [hwhole]
    by_cases hext : isExtended (firstByte p.data) = true
    · rw [if_pos hext, if_neg (fun hboth => hboth.2 hext)]
    · rw [if_neg hext, if_pos ⟨p.data_ne, hext⟩]
  unfold packetSymbols
  rw [hlogical]
  simp only [decodeFrames_heldHead h, hframes]
  rw [length_heldHead h.fits]
  rfl

/-- The burst of a packet parses as the packet and nothing else, whatever follows it on the air. -/
theorem parseBits_burst {p : Packet} (h : Whole p) (behind : Bits) (polarity : ℤ)
    (ts : Option Time) {minBytes : ℕ} (hmin : minBytes ≤ p.data.length) :
    ∃ q, parseBits ((inPolarity polarity (heldHead p ++ behind)).take
        (packetSymbols (inPolarity polarity (heldHead p ++ behind)) polarity)) ts minBytes = [q] ∧
      ReadBack p q := by
  have hfits := h.fits
  have hcut : (inPolarity polarity (heldHead p ++ behind)).take ((heldHead p).length + 8) =
      if polarity < 0 then invertBits (heldHead p ++ behind.take 8)
      else heldHead p ++ behind.take 8 := by
    have htake : (heldHead p ++ behind).take ((heldHead p).length + 8) =
        heldHead p ++ behind.take 8 := List.take_length_add_append 8
    unfold inPolarity
    split_ifs
    · rw [invertBits, ← List.map_take, htake]
      rfl
    · exact htake
  have htail : (behind.take 8).length ≤ 8 := List.length_take_le _ _
  have hocc := header_heldHead hfits htail
  have hheader : find startHeader (heldHead p ++ behind.take 8) 0 = some headerSymbolInTemplate :=
    find_of_first (Nat.zero_le _) ((hocc _).mpr rfl)
      (fun i _ hi hat => absurd ((hocc i).mp hat) hi.ne)
  have hlate : ∀ j, find startHeaderInv (heldHead p ++ behind.take 8) 0 = some j →
      headerSymbolInTemplate < j := by
    intro j hj
    by_contra hle
    have hat := (find_eq_some hj).2.1
    obtain ⟨rest, hrest⟩ := heldHead_template p
    have heleven : headerSymbolInTemplate = 11 := rfl
    have hsize : syncTemplate.length = 27 := by decide
    have hinv : startHeaderInv.length = 16 := rfl
    rw [hrest, List.append_assoc, occursAt_append_left (by omega)] at hat
    have hj11 : j ≤ 11 := by omega
    interval_cases j <;> revert hat <;> decide
  have hheaders := findHeaders_of_first hheader hlate (decide (polarity < 0))
  have hfind : findAll startHeader (heldHead p ++ behind.take 8)
      ((heldHead p ++ behind.take 8).length + 1) 0 = [headerSymbolInTemplate] :=
    findAll_eq (by decide) (fun i _ => (hocc i).trans List.mem_singleton.symm)
      (List.pairwise_singleton _ _) (fun _ _ => Nat.zero_le _) (by
        have := length_heldHead hfits
        simp only [List.length_singleton, List.length_append]
        omega)
  obtain ⟨q, hq, hback⟩ := parseAt_of_decodeFrames hfits ts hmin
    (decodeFrames_heldHead h (behind.take 8))
  refine ⟨q, ?_, hback⟩
  simp only [decide_eq_true_eq] at hheaders
  rw [packetSymbols_heldHead h, hcut, parseBits, hheaders, hfind]
  simp only [List.filterMap_cons, List.filterMap_nil, hq]

namespace Demod

variable {d : Demod} {sig : Signal} {size : ℕ}

theorem syncs_distinct (hsps : 0 < d.sps) (hrank : Ranks d.argsort) :
    (d.syncs sig size).Pairwise (fun s t => s.start ≠ t.start) := by
  have hblock : 0 < d.syncDecim := lt_of_lt_of_le one_pos (le_max_left _ _)
  have hdistinct : ∀ n score, (d.syncArgs.findSync n score d.argsort).Pairwise
      (fun s t => s.start ≠ t.start) := by
    intro n score
    refine (SyncArgs.findSync_spaced hrank hblock).imp fun {s t} hgap heq => ?_
    rw [heq, sub_self, abs_zero] at hgap
    have hgap' : 0 < (minPacketSymbols : ℚ) * d.sps + (d.syncDecim : ℚ) / 2 :=
      add_pos_of_nonneg_of_pos (mul_nonneg (Nat.cast_nonneg _) hsps.le)
        (half_pos (Nat.cast_pos.mpr hblock))
    exact absurd hgap (not_le.mpr hgap')
  unfold syncs
  split
  · split_ifs
    · rcases toneSync_cases size d.sps d.syncDecim d.sync_threshold sig.toneScore d.argsort with
        hnone | ⟨cfo, -, hfound⟩
      · rw [hnone]
        exact List.Pairwise.nil
      · rw [hfound]
        exact hdistinct _ _
    · exact List.Pairwise.nil
  · exact hdistinct _ _

theorem readable_strict (sig : Signal) (size : ℕ) (hsps : 0 < d.sps) (hrank : Ranks d.argsort) :
    (d.readable sig size true ((d.syncs sig size).mergeSort Sync.le)).Pairwise
      (fun r r' => (r.1.start : ℚ) < r'.1.start) := by
  have hdistinct : ((d.syncs sig size).mergeSort Sync.le).Pairwise (fun s t => s.start ≠ t.start) :=
    ((List.mergeSort_perm _ _).pairwise_iff (fun {_ _} h => h.symm)).mpr
      (syncs_distinct hsps hrank)
  have hstrict := ((sorted_starts (d.syncs sig size)).and hdistinct).imp
    fun {s t} h => lt_of_le_of_ne h.1 (fun heq => h.2 (Nat.cast_injective heq))
  unfold readable
  rw [List.pairwise_filterMap]
  refine hstrict.imp fun {s s'} hlt r hr r' hr' => ?_
  obtain ⟨t, -, rfl⟩ := Option.map_eq_some_iff.mp hr
  obtain ⟨t', -, rfl⟩ := Option.map_eq_some_iff.mp hr'
  exact hlt

end Demod

/-- A packet on the air, the sync it was found by and the trial that reads it best. -/
structure Sent where
  packet : Packet
  sync : Sync
  trial : Trial

def Sent.ends (x : Sent) : ℚ :=
  x.sync.start + x.trial.shift + ((heldHead x.packet).length : ℚ) * x.trial.sps

/-- A segment in which whole packets were sent one after the other. Each has a sync from which it
reads well, and a sync that is no packet's own lies inside of a packet. -/
structure Heard (d : Demod) (sig : Signal) (size : ℕ) (sent : List Sent) : Prop where
  found : ∀ x ∈ sent, x.sync ∈ d.syncs sig size
  read : ∀ x ∈ sent, d.best sig size true x.sync = some x.trial
  head : ∀ x ∈ sent, ∃ behind, x.trial.bits =
    inPolarity x.sync.polarity (heldHead x.packet ++ behind)
  whole : ∀ x ∈ sent, Whole x.packet
  apart : sent.Pairwise fun x y => x.sync.start < y.sync.start ∧ x.ends ≤ y.sync.start
  inside : ∀ s ∈ d.syncs sig size, (∃ x ∈ sent, s = x.sync) ∨
    ∃ x ∈ sent, x.sync.start < s.start ∧ (s.start : ℚ) < x.ends

theorem burst_bits {sig : Signal} {offset : ℕ} {timestamp : Option ℚ} {x : Sent} {bits : Bits}
    (h : x.trial.bits = bits) :
    (Demod.burstOf sig true offset timestamp x.sync x.trial).bits =
      bits.take (packetSymbols bits x.sync.polarity) := by
  simp only [Demod.burstOf, keepSymbols, if_true, h]

namespace Heard

variable {d : Demod} {sig : Signal} {size : ℕ} {sent : List Sent}

theorem busyUntil_eq (h : Heard d sig size sent) {x : Sent} (hx : x ∈ sent) :
    busyUntil x.sync x.trial = x.ends := by
  obtain ⟨behind, hbits⟩ := h.head x hx
  rw [busyUntil, hbits, packetSymbols_heldHead (h.whole x hx), Sent.ends]
  push_cast
  ring

/-- The loop takes the syncs of the packets and no others. -/
theorem scan_eq (h : Heard d sig size sent) (hsps : 0 < d.sps) (hrank : Ranks d.argsort) :
    scan (fun r => (r.1.start : ℚ)) (fun r => busyUntil r.1 r.2) (-1)
      (d.readable sig size true ((d.syncs sig size).mergeSort Sync.le)) =
        sent.map fun x => (x.sync, x.trial) := by
  have hstrict := Demod.readable_strict sig size hsps hrank
  have hsorted : ∀ s, s ∈ (d.syncs sig size).mergeSort Sync.le ↔ s ∈ d.syncs sig size :=
    fun s => List.mem_mergeSort
  have hstarts : (sent.map fun x => (x.sync, x.trial)).Pairwise
      (fun r r' => (r.1.start : ℚ) < r'.1.start) :=
    List.pairwise_map.mpr (h.apart.imp fun {x y} hxy => Nat.cast_lt.mpr hxy.1)
  refine scan_eq_of_covered hstrict (sublist_of_starts hstrict hstarts fun r hr => ?_) ?_ ?_ ?_
  · obtain ⟨x, hx, rfl⟩ := List.mem_map.mp hr
    exact Demod.mem_readable.mpr ⟨(hsorted _).mpr (h.found x hx), h.read x hx⟩
  · refine List.pairwise_map.mpr (h.apart.imp_of_mem fun {x y} hx _ hxy => ?_)
    rw [h.busyUntil_eq hx]
    exact hxy.2
  · intro r _
    have hpos : (0 : ℚ) ≤ r.1.start := Nat.cast_nonneg _
    linarith
  · intro r hr
    obtain ⟨hfound, hbest⟩ := Demod.mem_readable.mp hr
    rcases h.inside r.1 ((hsorted _).mp hfound) with ⟨x, hx, hown⟩ | ⟨x, hx, hlt, hin⟩
    · refine Or.inl (List.mem_map.mpr ⟨x, hx, ?_⟩)
      rw [hown, h.read x hx] at hbest
      exact Prod.ext hown.symm (Option.some.inj hbest)
    · refine Or.inr (Or.inr ⟨_, List.mem_map_of_mem hx, Nat.cast_lt.mpr hlt, ?_⟩)
      rw [h.busyUntil_eq hx]
      exact hin

end Heard

/-- A segment in which every sync is a packet's own or lies inside of one gives one burst for each
packet, in the order they were sent, and each burst parses as its packet and nothing else. -/
theorem packets_once (d : Demod) (sig : Signal) (size offset : ℕ) (timestamp : Option ℚ)
    (sent : List Sent) (hrate : 0 < d.sample_rate) (hbaud : 0 < d.baud) (hrank : Ranks d.argsort)
    (hmin : d.min_bits ≤ minPacketSymbols) (hne : sent ≠ []) (h : Heard d sig size sent) :
    List.Forall₂ (fun x b => b.start = (offset : ℤ) + (x.sync.start + x.trial.shift) ∧
        b.header_index = some headerSymbolInTemplate ∧
        ∃ q, parseBits b.bits b.timestamp 4 = [q] ∧ ReadBack x.packet q)
      sent (d.demodBurst sig size offset timestamp) := by
  have hsps : 0 < d.sps := div_pos (Nat.cast_pos.mpr hrate) hbaud
  have hsyncs : d.syncs sig size ≠ [] := by
    obtain ⟨x, hx⟩ := List.exists_mem_of_ne_nil sent hne
    exact List.ne_nil_of_mem (h.found x hx)
  have hbits : ∀ x ∈ sent, minPacketSymbols ≤ (heldHead x.packet).length := by
    intro x hx
    have hwhole : x.packet.data.length = fullLen x.packet.extended := h.whole x hx
    have hfull : 13 ≤ fullLen x.packet.extended := by cases x.packet.extended <;> decide
    rw [length_heldHead (h.whole x hx).fits, frameBits, minPacketSymbols]
    omega
  have hlong : ∀ b ∈ sent.map (fun x => Demod.burstOf sig true offset timestamp x.sync x.trial),
      d.longEnough b = true := by
    intro b hb
    obtain ⟨x, hx, rfl⟩ := List.mem_map.mp hb
    obtain ⟨behind, hread⟩ := h.head x hx
    have hhead := hbits x hx
    have hlen : ((inPolarity x.sync.polarity (heldHead x.packet ++ behind)).take
        (packetSymbols (inPolarity x.sync.polarity (heldHead x.packet ++ behind))
          x.sync.polarity)).length ≥ (heldHead x.packet).length := by
      rw [packetSymbols_heldHead (h.whole x hx), List.length_take, length_inPolarity,
        List.length_append]
      omega
    rw [Demod.longEnough, decide_eq_true_iff, burst_bits hread]
    omega
  have hbursts : d.demodBurst sig size offset timestamp =
      sent.map (fun x => Demod.burstOf sig true offset timestamp x.sync x.trial) := by
    rw [Demod.demodBurst_synced hsyncs, h.scan_eq hsps hrank, List.map_map]
    exact List.filter_eq_self.mpr hlong
  rw [hbursts, List.forall₂_map_right_iff, List.forall₂_same]
  intro x hx
  obtain ⟨behind, hread⟩ := h.head x hx
  have hfour : 4 ≤ x.packet.data.length := by
    have hlen := length_heldHead (h.whole x hx).fits
    have := hbits x hx
    rw [hlen, frameBits, minPacketSymbols] at this
    omega
  obtain ⟨q, hq, hback⟩ := parseBits_burst (h.whole x hx) behind x.sync.polarity timestamp hfour
  refine ⟨rfl, rfl, q, ?_, hback⟩
  rw [burst_bits hread]
  exact hq

def loudPacket : Packet :=
  Packet.ofBytes 0x0F#8 [0x07#8, 0x93#8, 0x2B#8, 0x52#8, 0x1C#8, 0x21#8, 0x11#8, 0xFF#8, 0x31#8,
    0x00#8, 0x00#8, 0xAA#8]

def loudAck : Packet :=
  Packet.ofBytes 0x2F#8 [0x52#8, 0x1C#8, 0x21#8, 0x07#8, 0x93#8, 0x2B#8, 0x11#8, 0xFF#8, 0x11#8,
    0x00#8, 0x00#8, 0xAA#8]

def loudTrial (base : ℕ) : Trial where
  soft := (List.range (780 - base)).map fun k => if loudAir.testBit (base + k) then 1 else -1
  sps := 1
  shift := -1

def loudSent : List Sent :=
  [{ packet := loudPacket, sync := { start := 1, score := 9 / 10, polarity := 1 },
     trial := loudTrial 0 },
   { packet := loudAck, sync := { start := 381, score := 17 / 20, polarity := -1 },
     trial := loudTrial 380 }]

theorem heard_loud : Heard loudDemod loudSignal 780 loudSent := by
  have hsyncs : loudDemod.syncs loudSignal 780 =
      loudSent.map Sent.sync ++ [{ start := 750, score := 4 / 5, polarity := 1 }] := by decide +kernel
  constructor
  · intro x hx
    rw [hsyncs]
    exact List.mem_append_left _ (List.mem_map_of_mem hx)
  · decide +kernel
  · have hhead : ∀ x ∈ loudSent, x.trial.bits = inPolarity x.sync.polarity
        (heldHead x.packet ++ (inPolarity x.sync.polarity x.trial.bits).drop 380) := by
      decide +kernel
    exact fun x hx => ⟨_, hhead x hx⟩
  · exact (by decide +kernel : ∀ x ∈ loudSent, x.packet.data.length = fullLen x.packet.extended)
  · decide +kernel
  · intro s hs
    rw [hsyncs] at hs
    rcases List.mem_append.mp hs with hown | hfalse
    · obtain ⟨x, hx, rfl⟩ := List.mem_map.mp hown
      exact Or.inl ⟨x, hx, rfl⟩
    · rw [List.mem_singleton.mp hfalse]
      exact Or.inr (by decide +kernel)

theorem packets_once_loud :
    List.Forall₂ (fun x b => b.start = ((0 : ℕ) : ℤ) + (x.sync.start + x.trial.shift) ∧
        b.header_index = some headerSymbolInTemplate ∧
        ∃ q, parseBits b.bits b.timestamp 4 = [q] ∧ ReadBack x.packet q)
      loudSent (loudDemod.demodBurst loudSignal 780 0 none) :=
  packets_once loudDemod loudSignal 780 0 none loudSent (by decide) (by norm_num [loudDemod])
    ranks_stableArgsort (by decide) (by simp [loudSent]) heard_loud

end InsteonRf.Dsp
