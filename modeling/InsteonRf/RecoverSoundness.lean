import InsteonRf.Recover
import InsteonRf.FramingCanonical

/-!
# What a recovered packet is worth

The kind of packet, its length and the counter sequence are fixed by the first reading
of the flags byte. A repair may flip the EXT bit of that byte, and then the packet
answered is not of the kind its checks were made for.
-/
namespace InsteonRf
open LsbBits Selection SignedIndex

namespace Recover

theorem logical_length {sym : List ℚ} {a : ℤ} {count : ℕ} {v : List Reading}
    (h : logical sym a count = .ok v) :
    v.length ≤ count ∧ (v.length < count → (sym.length : ℤ) ≤ a + 2 * v.length + 1) := by
  induction count generalizing a v with
  | zero =>
      obtain rfl := Except.ok.inj h
      simp
  | succ count ih =>
      rw [logical] at h
      split_ifs at h with hend
      · obtain rfl := Except.ok.inj h
        simp only [List.length_nil]
        omega
      · cases hs₀ : symbol sym a with
        | error e => simp [hs₀, bind, Except.bind] at h
        | ok s₀ =>
            cases hs₁ : symbol sym (a + 1) with
            | error e => simp [hs₀, hs₁, bind, Except.bind] at h
            | ok s₁ =>
                cases hrest : logical sym (a + 2) count with
                | error e => simp [hs₀, hs₁, hrest, bind, Except.bind] at h
                | ok rest =>
                    obtain rfl : reading s₀ s₁ :: rest = v := by
                      simpa [hs₀, hs₁, hrest, bind, Except.bind, pure, Except.pure] using h
                    obtain ⟨hle, hcut⟩ := ih hrest
                    simp only [List.length_cons]
                    constructor
                    · omega
                    · intro hlt
                      have := hcut (by omega)
                      push_cast
                      omega

theorem logicalFrames_length {sym : List ℚ} {base : ℤ} {nframes : ℕ} {all : List Reading}
    (h : logicalFrames sym base nframes = .ok all) :
    ∃ k ≤ nframes, all.length = k * frameLogicalBits ∧
      (k < nframes → (sym.length : ℤ) < base + frameBits * (k + 1)) := by
  induction nframes generalizing base all with
  | zero =>
      obtain rfl := Except.ok.inj h
      exact ⟨0, le_rfl, rfl, by simp⟩
  | succ nframes ih =>
      rw [logicalFrames] at h
      cases hv : logical sym (base + 2) frameLogicalBits with
      | error e => simp [hv, bind, Except.bind] at h
      | ok v =>
          obtain ⟨hle, hcut⟩ := logical_length hv
          by_cases hshort : v.length < frameLogicalBits
          · obtain rfl : [] = all := by
              simpa [hv, hshort, bind, Except.bind, pure, Except.pure] using h
            refine ⟨0, Nat.zero_le _, by simp, ?_⟩
            intro _
            have := hcut hshort
            simp only [frameLogicalBits, frameIndexBits, frameDataBits, frameBits] at hshort ⊢
            push_cast
            omega
          · cases hrest : logicalFrames sym (base + frameBits) nframes with
            | error e => simp [hv, hshort, hrest, bind, Except.bind] at h
            | ok rest =>
                obtain rfl : v ++ rest = all := by
                  simpa [hv, hshort, hrest, bind, Except.bind, pure, Except.pure] using h
                obtain ⟨k, hk, hlen, hnext⟩ := ih hrest
                refine ⟨k + 1, by omega, ?_, ?_⟩
                · rw [List.length_append, hlen, Nat.add_mul]
                  omega
                · intro hlt
                  have := hnext (by omega)
                  push_cast at this ⊢
                  linarith

@[simp] theorem length_bytesFrom (values : List Bool) (nframes : ℕ) :
    (bytesFrom values nframes).length = nframes := by
  simp [bytesFrom]

def extPosition : ℕ := frameIndexBits + 4

theorem isExtended_eq (b : Byte) : isExtended b = b.getLsbD 4 := by
  revert b
  decide

theorem isExtended_bytesFrom (values : List Bool) {nframes : ℕ} (h : 0 < nframes) :
    isExtended (firstByte (bytesFrom values nframes)) = values.getD extPosition false := by
  obtain ⟨n, rfl⟩ := Nat.exists_eq_succ_of_ne_zero (Nat.ne_of_gt h)
  have hfirst : firstByte (bytesFrom values (n + 1)) =
      BitVec.ofNat 8 (ofLsbBits ((values.drop 5).take 8)) := by
    simp [bytesFrom, List.range_succ_eq_map, firstByte, frameIndexBits, frameDataBits]
  rw [hfirst, isExtended_eq, BitVec.getLsbD_ofNat, testBit_ofLsbBits]
  simp [extPosition, frameIndexBits, List.getD_eq_getElem?_getD]

theorem getElem?_flipAt {positions : List ℕ} (hnodup : positions.Nodup) (values : List Bool)
    (i : ℕ) :
    (flipAt values positions)[i]? = values[i]?.map (fun b => b ^^ decide (i ∈ positions)) := by
  induction positions generalizing values with
  | nil => simp [flipAt]
  | cons p positions ih =>
      rw [List.nodup_cons] at hnodup
      have hstep : flipAt values (p :: positions) = flipAt (values.modify p (!·)) positions := rfl
      rw [hstep, ih hnodup.2, List.getElem?_modify]
      by_cases hp : p = i
      · subst hp
        cases values[p]? with
        | none => rfl
        | some b => simp [hnodup.1]
      · have hp' : i ≠ p := fun h => hp h.symm
        cases values[i]? with
        | none => simp [hp]
        | some b => simp [hp, hp', List.mem_cons]

theorem getD_flipAt {positions : List ℕ} (hnodup : positions.Nodup) {values : List Bool} {i : ℕ}
    (hi : i < values.length) :
    (flipAt values positions).getD i false = (values.getD i false ^^ decide (i ∈ positions)) := by
  rw [List.getD_eq_getElem?_getD, getElem?_flipAt hnodup, List.getD_eq_getElem?_getD,
    List.getElem?_eq_getElem hi]
  rfl

theorem readPacket_ok {sym : List ℚ} {pos : ℤ} {extended : Bool} {all : List Reading}
    (h : readPacket sym pos = .ok (some (extended, all))) :
    ∃ head, logical sym (pos + markerOffset + 2) frameLogicalBits = .ok head ∧
      frameLogicalBits ≤ head.length ∧
      isExtended (firstByte (bytesFrom (head.map Reading.value) 1)) = extended ∧
      logicalFrames sym (pos + markerOffset) (fullLen extended) = .ok all := by
  rw [readPacket] at h
  cases hhead : logical sym (pos + markerOffset + 2) frameLogicalBits with
  | error e => simp [hhead, bind, Except.bind] at h
  | ok head =>
      by_cases hshort : head.length < frameLogicalBits
      · simp [hhead, hshort, bind, Except.bind, pure, Except.pure] at h
      · cases hall : logicalFrames sym (pos + markerOffset)
          (if isExtended (firstByte (bytesFrom (head.map Reading.value) 1)) then extLen else stdLen) with
        | error e => simp [hhead, hshort, hall, bind, Except.bind] at h
        | ok frames =>
            obtain ⟨hext, rfl⟩ : isExtended (firstByte (bytesFrom (head.map Reading.value) 1)) =
                extended ∧ frames = all := by
              simpa [hhead, hshort, hall, bind, Except.bind, pure, Except.pure] using h
            rw [hext] at hall
            exact ⟨head, rfl, by omega, hext, hall⟩

theorem readPacket_some {sym : List ℚ} {pos : ℤ} {extended : Bool} {all : List Reading}
    (h : readPacket sym pos = .ok (some (extended, all))) :
    ∃ k, 0 < k ∧ k ≤ fullLen extended ∧ all.length = k * frameLogicalBits ∧
      (k < fullLen extended → (sym.length : ℤ) < pos + markerOffset + frameBits * (k + 1)) ∧
      (all.map Reading.value).getD extPosition false = extended := by
  obtain ⟨head, hhead, hfull, hext, hall⟩ := readPacket_ok h
  obtain ⟨k, hk, hlen, hnext⟩ := logicalFrames_length hall
  -- Frame 0 is read twice, and the second time as the first.
  obtain ⟨rest, rfl⟩ : ∃ rest, all = head ++ rest := by
    obtain ⟨n, hn⟩ : ∃ n, fullLen extended = n + 1 := by
      cases extended
      · exact ⟨12, rfl⟩
      · exact ⟨31, rfl⟩
    have hshort : ¬ head.length < frameLogicalBits := by omega
    rw [hn, logicalFrames] at hall
    cases hrest : logicalFrames sym (pos + markerOffset + frameBits) n with
    | error e => simp [hhead, hshort, hrest, bind, Except.bind] at hall
    | ok rest =>
        refine ⟨rest, ?_⟩
        simpa [hhead, hshort, hrest, bind, Except.bind, pure, Except.pure, eq_comm] using hall
  have hthirteen : extPosition < head.length := by
    simp only [extPosition, frameLogicalBits, frameIndexBits, frameDataBits] at hfull ⊢
    omega
  refine ⟨k, ?_, hk, hlen, hnext, ?_⟩
  · rw [List.length_append] at hlen
    apply Nat.pos_of_ne_zero
    rintro rfl
    simp only [Nat.zero_mul, frameLogicalBits, frameIndexBits, frameDataBits] at hlen hfull
    omega
  · rw [isExtended_bytesFrom _ Nat.one_pos] at hext
    rw [← hext, List.map_append, List.getD_append _ _ _ _ (by simpa using hthirteen)]

theorem mem_dataPositions {nframes size p : ℕ} (h : p ∈ dataPositions nframes size) :
    frameIndexBits ≤ p % frameLogicalBits ∧ p < size := by
  rw [dataPositions, List.mem_filter, List.mem_flatMap] at h
  obtain ⟨⟨f, -, hp⟩, hsize⟩ := h
  obtain ⟨b, hb, rfl⟩ := List.mem_map.mp hp
  rw [List.mem_range] at hb
  simp only [frameDataBits, frameIndexBits, frameLogicalBits] at hb ⊢
  exact ⟨by omega, of_decide_eq_true hsize⟩

theorem dataPositions_nodup (nframes size : ℕ) : (dataPositions nframes size).Nodup := by
  apply List.Nodup.filter
  rw [List.nodup_flatMap]
  constructor
  · intro f _
    apply List.Nodup.map _ List.nodup_range
    intro b c hbc
    exact Nat.add_left_cancel hbc
  · apply List.nodup_range.imp
    intro f g hne p hf hg
    obtain ⟨b, hb, rfl⟩ := List.mem_map.mp hf
    obtain ⟨c, hc, heq⟩ := List.mem_map.mp hg
    rw [List.mem_range] at hb hc
    simp only [frameDataBits, frameIndexBits, frameLogicalBits] at hb hc heq
    omega

theorem suspects_sublist (conf : List ℚ) (nframes size : ℕ) (candidates : ℤ) :
    (suspects conf nframes size candidates).Nodup ∧
      ∀ p ∈ suspects conf nframes size candidates, p ∈ dataPositions nframes size := by
  have hsub := upTo_sublist
    (sortOn (fun p => conf.getD p 0) ((dataPositions nframes size).filter (fun p => decide
      (conf.getD p 0 ≤ suspectRatio * (if median ((dataPositions nframes size).map
        (fun p => conf.getD p 0)) = 0 then 1 else median ((dataPositions nframes size).map
          (fun p => conf.getD p 0))))))) candidates
  constructor
  · apply hsub.nodup
    rw [(sortOn_perm _ _).nodup_iff]
    exact (dataPositions_nodup nframes size).filter _
  · intro p hp
    exact List.mem_of_mem_filter (mem_sortOn.mp (hsub.subset hp))

/-- What the search finds passes, flips each position once and flips data bits only. -/
theorem search_some {values : List Bool} {conf : List ℚ} {nframes : ℕ} {extended : Bool}
    {max_flips candidates : ℤ} {combo : List ℕ}
    (h : search values conf nframes extended max_flips candidates = some combo) :
    passes nframes extended (flipAt values combo) = true ∧ combo.Nodup ∧
      ∀ p ∈ combo, frameIndexBits ≤ p % frameLogicalBits ∧ p < values.length := by
  rw [search] at h
  obtain ⟨k, -, hcombo⟩ := List.mem_flatMap.mp (List.mem_of_find?_eq_some h)
  obtain ⟨hsub, -⟩ := combinations_sublist hcombo
  obtain ⟨hnodup, hdata⟩ := suspects_sublist conf nframes values.length candidates
  have hpass := List.find?_some (p := fun combo => passes nframes extended (flipAt values combo)) h
  exact ⟨hpass, hsub.nodup hnodup, fun p hp => mem_dataPositions (hdata p (hsub.subset hp))⟩

/-- The answer is the first reading when its CRC matches, else what the search made of it. -/
theorem settle_some {values : List Bool} {conf : List ℚ} {nframes : ℕ} {extended : Bool}
    {o : RecoverOptions} {data : List Byte} {corrected bad : ℕ}
    (h : settle values conf nframes extended o = some (data, corrected, bad)) :
    (indexErrors values nframes extended : ℤ) ≤ o.max_index_errors ∧
      ((crcOk (bytesFrom values nframes) extended = true ∧ data = bytesFrom values nframes ∧
          corrected = 0 ∧ bad = indexErrors values nframes extended) ∨
        (crcOk (bytesFrom values nframes) extended = false ∧ o.repair = true ∧
          ∃ combo, search values conf nframes extended o.max_flips o.candidates = some combo ∧
            data = bytesFrom (flipAt values combo) nframes ∧ corrected = combo.length ∧
            bad = 0)) := by
  rw [settle] at h
  split_ifs at h with hbad hcrc hrepair
  · obtain ⟨rfl, rfl, rfl⟩ : bytesFrom values nframes = data ∧ 0 = corrected ∧
        indexErrors values nframes extended = bad := by simpa using h
    exact ⟨by omega, Or.inl ⟨hcrc, rfl, rfl, rfl⟩⟩
  · obtain ⟨⟨d, n⟩, hr, heq⟩ := Option.map_eq_some_iff.mp h
    obtain ⟨combo, hsearch, hfix⟩ := Option.map_eq_some_iff.mp hr
    obtain ⟨rfl, rfl, rfl⟩ : d = data ∧ n = corrected ∧ 0 = bad := by simpa using heq
    obtain ⟨rfl, rfl⟩ := Prod.mk.inj hfix
    exact ⟨by omega, Or.inr ⟨by simpa using hcrc, hrepair, combo, hsearch, rfl, rfl, rfl⟩⟩

def flagsHopsOk (flags : Byte) : Bool :=
  decide (((flags >>> 2) &&& 3#8).toNat ≤ (flags &&& 3#8).toNat)

theorem hopsOk_eq (p : Packet) : p.hopsOk = flagsHopsOk (firstByte p.data) := rfl

theorem judge_some {bits : Bits} {all : List Reading} {extended : Bool} {pos : ℤ}
    {ts : Option Time} {o : RecoverOptions} {r : Recovered}
    (h : judge bits all extended pos ts o = some r) :
    ∃ data corrected bad,
      settle (all.map Reading.value) (all.map Reading.conf) (all.length / frameLogicalBits)
        extended o = some (data, corrected, bad) ∧
      r.packet.data = data ∧ r.packet.index_ok = some true ∧ r.packet.hopsOk = true ∧
      r.corrected = corrected ∧ r.index_errors = bad := by
  rw [judge] at h
  cases hs : settle (all.map Reading.value) (all.map Reading.conf)
      (all.length / frameLogicalBits) extended o with
  | none => simp [hs] at h
  | some answer =>
      obtain ⟨data, corrected, bad⟩ := answer
      simp only [hs] at h
      split_ifs at h with hne hhops
      obtain rfl := Option.some.inj h
      exact ⟨data, corrected, bad, rfl, rfl, rfl, hhops, rfl, rfl⟩

theorem judge_of_settle (bits : Bits) {all : List Reading} {extended : Bool} (pos : ℤ)
    (ts : Option Time) {o : RecoverOptions} {data : List Byte} {corrected bad : ℕ}
    (hs : settle (all.map Reading.value) (all.map Reading.conf) (all.length / frameLogicalBits)
      extended o = some (data, corrected, bad))
    (hne : data ≠ []) (hhops : flagsHopsOk (firstByte data) = true) :
    ∃ r, judge bits all extended pos ts o = some r ∧ r.packet.data = data ∧
      r.corrected = corrected := by
  rw [judge]
  simp only [hs, dif_neg hne]
  simp only [hopsOk_eq, hhops, if_true]
  exact ⟨_, rfl, rfl, rfl⟩

theorem recoverFrom_some {bits : Bits} {sym : List ℚ} {pos : ℤ} {ts : Option Time}
    {o : RecoverOptions} {r : Recovered} :
    recoverFrom bits sym pos ts o = .ok (some r) ↔
      ∃ extended all, readPacket sym pos = .ok (some (extended, all)) ∧
        judge bits all extended pos ts o = some r := by
  rw [recoverFrom]
  cases hread : readPacket sym pos with
  | error e => simp [bind, Except.bind]
  | ok found =>
      cases found with
      | none => simp [bind, Except.bind, pure, Except.pure]
      | some answer =>
          obtain ⟨extended, all⟩ := answer
          simp [bind, Except.bind, pure, Except.pure]

theorem crcOk_spec {data : List Byte} {extended : Bool} (h : crcOk data extended = true) :
    (if extended then extCrcIndex else stdCrcIndex) < data.length ∧
      data.getD (if extended then extCrcIndex else stdCrcIndex) 0 = pktCrc data ∧
      (extended = true → data.getD extDataCrcIndex 0 = extCrc data) := by
  cases extended with
  | false =>
      rw [crcOk] at h
      simp only [Bool.false_eq_true, if_false] at h ⊢
      split_ifs at h with hshort
      exact ⟨by omega, of_decide_eq_true h, by simp⟩
  | true =>
      rw [crcOk] at h
      simp only [if_true] at h ⊢
      split_ifs at h with hshort
      obtain ⟨hcrc, hext⟩ := Bool.and_eq_true_iff.mp h
      exact ⟨by omega, of_decide_eq_true hcrc, fun _ => of_decide_eq_true hext⟩

theorem crc_of_crcOk {p : Packet} (h : crcOk p.data p.extended = true) :
    p.crcOk = some true ∧ (p.extended = true → p.extCrcOk = some true) := by
  obtain ⟨hlen, hcrc, hext⟩ := crcOk_spec h
  have hindex : p.crcIndex < p.data.length := hlen
  constructor
  · have hbyte : p.crc = some (pktCrc p.data) := by
      rw [Packet.crc, List.getElem?_eq_getElem hindex, ← hcrc]
      simp [Packet.crcIndex, List.getD_eq_getElem?_getD] at hindex ⊢
      rw [List.getElem?_eq_getElem hindex]
      rfl
    rw [Packet.crcOk, hbyte, Packet.calcCrc, if_pos hindex.le]
    simp
  · intro hx
    have hin : extDataCrcIndex < p.data.length := by
      rw [hx] at hlen
      simp only [if_true, extCrcIndex, extDataCrcIndex] at hlen ⊢
      omega
    have hbyte := hext hx
    rw [List.getD_eq_getElem?_getD, List.getElem?_eq_getElem hin] at hbyte
    rw [Packet.extCrcOk, if_pos hx, List.getElem?_eq_getElem hin]
    simpa using hbyte

/-- Valid on its own terms, in a capture of `size` symbols with the header at `pos`: both
checksums as the flags byte asks, possible hop fields, and the frames of its kind, or as
many as the capture holds. -/
structure SoundAt (size : ℕ) (pos : ℤ) (p : Packet) : Prop where
  crc : p.crcOk = some true
  extCrc : p.extended = true → p.extCrcOk = some true
  hops : p.hopsOk = true
  length : p.data.length = fullLen p.extended ∨
    (p.data.length < fullLen p.extended ∧
      (size : ℤ) < pos + markerOffset + frameBits * (p.data.length + 1))

/-- Bytes that pass as one kind are never sound as the other. -/
theorem not_sound_of_crcOk {p : Packet} {extended : Bool} (hcrc : crcOk p.data extended = true)
    (hlen : p.data.length ≤ fullLen extended) (hkind : p.extended = !extended) (size : ℕ)
    (pos : ℤ) : ¬ SoundAt size pos p := by
  intro h
  obtain ⟨hlong, -, -⟩ := crcOk_spec hcrc
  cases extended with
  | false =>
      have hnone : p.crc = none := by
        rw [Packet.crc, Packet.crcIndex, hkind]
        apply List.getElem?_eq_none
        simp only [fullLen, Bool.false_eq_true, if_false, stdLen] at hlen
        simp only [Bool.not_false, if_true, extCrcIndex]
        omega
      have hcrc' := h.crc
      rw [Packet.crcOk, hnone] at hcrc'
      cases hcrc'
  | true =>
      simp only [if_true, extCrcIndex] at hlong
      have hfull := h.length
      rw [hkind] at hfull
      simp only [fullLen, Bool.not_true, Bool.false_eq_true, if_false, stdLen] at hfull
      omega

/-- The search runs at this offset, and what it accepts first flips the EXT bit and
carries possible hop fields. -/
def FlipsExt (sym : List ℚ) (pos : ℤ) (o : RecoverOptions) : Prop :=
  ∃ extended all combo, readPacket sym pos = .ok (some (extended, all)) ∧
    (indexErrors (all.map Reading.value) (all.length / frameLogicalBits) extended : ℤ) ≤
      o.max_index_errors ∧
    crcOk (bytesFrom (all.map Reading.value) (all.length / frameLogicalBits)) extended = false ∧
    o.repair = true ∧
    search (all.map Reading.value) (all.map Reading.conf) (all.length / frameLogicalBits) extended
      o.max_flips o.candidates = some combo ∧
    extPosition ∈ combo ∧
    flagsHopsOk (firstByte (bytesFrom (flipAt (all.map Reading.value) combo)
      (all.length / frameLogicalBits))) = true

/-- The bytes of a recovered packet, and the kind its flags byte announces. -/
structure Answer (sym : List ℚ) (pos : ℤ) (o : RecoverOptions) (r : Recovered) (extended : Bool)
    (all : List Reading) : Prop where
  read : readPacket sym pos = .ok (some (extended, all))
  count : all.length = r.packet.data.length * frameLogicalBits
  pos_len : 0 < r.packet.data.length
  le_full : r.packet.data.length ≤ fullLen extended
  cut : r.packet.data.length < fullLen extended →
    (sym.length : ℤ) < pos + markerOffset + frameBits * (r.packet.data.length + 1)
  crc : crcOk r.packet.data extended = true
  hops : r.packet.hopsOk = true
  checked : r.packet.index_ok = some true
  limit : (indexErrors (all.map Reading.value) r.packet.data.length extended : ℤ) ≤
    o.max_index_errors
  kind : FlipsExt sym pos o ∧ r.packet.extended = !extended ∨
    ¬ FlipsExt sym pos o ∧ r.packet.extended = extended
  counters : r.corrected = 0 ∧
      r.index_errors = indexErrors (all.map Reading.value) r.packet.data.length extended ∨
    r.index_errors = 0 ∧ indexErrors (all.map Reading.value) r.packet.data.length extended = 0

theorem countersFrom_flipAt {values : List Bool} {positions : List ℕ} (hnodup : positions.Nodup)
    (hdata : ∀ p ∈ positions, frameIndexBits ≤ p % frameLogicalBits) (nframes : ℕ) :
    countersFrom (flipAt values positions) nframes = countersFrom values nframes := by
  apply List.map_congr_left
  intro f _
  congr 1
  apply List.ext_getElem?
  intro i
  rw [List.getElem?_take, List.getElem?_take]
  split_ifs with hi
  · rw [List.getElem?_drop, List.getElem?_drop, getElem?_flipAt hnodup]
    have hout : f * frameLogicalBits + i ∉ positions := by
      intro hmem
      have := hdata _ hmem
      simp only [frameIndexBits, frameLogicalBits, frameDataBits] at hi this
      omega
    cases values[f * frameLogicalBits + i]? with
    | none => rfl
    | some b => simp [hout]
  · rfl

theorem answer_of_recoverFrom {bits : Bits} {sym : List ℚ} {pos : ℤ} {ts : Option Time}
    {o : RecoverOptions} {r : Recovered} (h : recoverFrom bits sym pos ts o = .ok (some r)) :
    ∃ extended all, Answer sym pos o r extended all := by
  obtain ⟨extended, all, hread, hjudge⟩ := recoverFrom_some.mp h
  obtain ⟨k, hpos, hfull, hcount, hcut, hkind⟩ := readPacket_some hread
  have hk : all.length / frameLogicalBits = k := by
    rw [hcount]
    exact Nat.mul_div_cancel k (by decide)
  obtain ⟨data, corrected, bad, hsettle, hdata, hindex, hhops, hcorr, hbad⟩ := judge_some hjudge
  have hin : extPosition < (all.map Reading.value).length := by
    rw [List.length_map, hcount]
    simp only [extPosition, frameIndexBits, frameLogicalBits, frameDataBits]
    omega
  refine ⟨extended, all, ?_⟩
  obtain ⟨hlimit, ⟨hcrc, rfl, hzero, hwrong⟩ | ⟨hcrc, hrepair, combo, hsearch, rfl, hflips, hnone⟩⟩ :=
    settle_some hsettle
  · rw [hk] at hdata hcrc hwrong
    have hlen : r.packet.data.length = k := by rw [hdata, length_bytesFrom]
    have hext : r.packet.extended = extended := by
      rw [Packet.extended, Packet.flagsByte, hdata, isExtended_bytesFrom _ hpos, hkind]
    have hkeep : ¬ FlipsExt sym pos o := by
      rintro ⟨e, l, combo, hread', -, hcrc', -⟩
      obtain ⟨rfl, rfl⟩ : extended = e ∧ all = l := by simpa [hread] using hread'
      rw [hk, hcrc] at hcrc'
      cases hcrc'
    exact ⟨hread, by rw [hlen, hcount], by omega, by omega, by simpa [hlen] using hcut,
      by rw [hdata]; exact hcrc, hhops, hindex, by rw [hlen, ← hk]; exact hlimit, Or.inr ⟨hkeep, hext⟩,
      Or.inl ⟨hcorr.trans hzero, by rw [hbad, hlen, hwrong]⟩⟩
  · obtain ⟨hpass, hnodup, hbits⟩ := search_some hsearch
    rw [passes, Bool.and_eq_true] at hpass
    obtain ⟨hpass, hclean⟩ := hpass
    have hflip : flagsHopsOk (firstByte (bytesFrom (flipAt (all.map Reading.value) combo)
        (all.length / frameLogicalBits))) = true := by
      rw [← hdata, ← hopsOk_eq]
      exact hhops
    have hcount' : indexErrors (all.map Reading.value) k extended = 0 := by
      have hclean' := of_decide_eq_true hclean
      rwa [hk, indexErrors, countersFrom_flipAt hnodup (fun p hp => (hbits p hp).1)] at hclean'
    have hext : r.packet.extended = (extended ^^ decide (extPosition ∈ combo)) := by
      rw [Packet.extended, Packet.flagsByte, hdata, hk, isExtended_bytesFrom _ hpos,
        getD_flipAt hnodup hin, hkind]
    have hlen : r.packet.data.length = k := by rw [hdata, length_bytesFrom, hk]
    refine ⟨hread, by rw [hlen, hcount], by omega, by omega, by simpa [hlen] using hcut,
      by rw [hdata]; exact hpass, hhops, hindex, by rw [hlen, ← hk]; exact hlimit, ?_,
      Or.inr ⟨hbad.trans hnone, by rw [hlen, hcount']⟩⟩
    by_cases hmem : extPosition ∈ combo
    · refine Or.inl ⟨⟨extended, all, combo, hread, hlimit, hcrc, hrepair, hsearch, hmem, hflip⟩, ?_⟩
      simp [hext, hmem]
    · refine Or.inr ⟨?_, by simp [hext, hmem]⟩
      rintro ⟨e, l, c, hread', -, -, -, hsearch', hmem', -⟩
      obtain ⟨rfl, rfl⟩ : extended = e ∧ all = l := by simpa [hread] using hread'
      obtain rfl : combo = c := by simpa [hsearch] using hsearch'
      exact hmem hmem'

/-- A recovered packet is sound unless its repair flipped the EXT bit. -/
theorem soundAt_iff {bits : Bits} {sym : List ℚ} {pos : ℤ} {ts : Option Time} {o : RecoverOptions}
    {r : Recovered} (h : recoverFrom bits sym pos ts o = .ok (some r)) :
    SoundAt sym.length pos r.packet ↔ ¬ FlipsExt sym pos o := by
  obtain ⟨extended, all, ha⟩ := answer_of_recoverFrom h
  obtain ⟨hflip, hkind⟩ | ⟨hkeep, hkind⟩ := ha.kind
  · have hunsound := not_sound_of_crcOk ha.crc ha.le_full hkind sym.length pos
    exact iff_of_false hunsound (not_not_intro hflip)
  · apply iff_of_true _ hkeep
    have hcrc := ha.crc
    rw [← hkind] at hcrc
    obtain ⟨hok, hext⟩ := crc_of_crcOk hcrc
    refine ⟨hok, hext, ha.hops, ?_⟩
    have hfull := ha.le_full
    have hcut := ha.cut
    rw [← hkind] at hfull hcut
    rcases Nat.lt_or_eq_of_le hfull with hlt | heq
    · exact Or.inr ⟨hlt, hcut hlt⟩
    · exact Or.inl heq

theorem recoverFrom_of_flipsExt {sym : List ℚ} {pos : ℤ} {o : RecoverOptions}
    (h : FlipsExt sym pos o) (bits : Bits) (ts : Option Time) :
    ∃ r, recoverFrom bits sym pos ts o = .ok (some r) := by
  obtain ⟨extended, all, combo, hread, hlimit, hcrc, hrepair, hsearch, -, hhops⟩ := h
  obtain ⟨k, hpos, -, hcount, -⟩ := readPacket_some hread
  have hk : all.length / frameLogicalBits = k := by
    rw [hcount]
    exact Nat.mul_div_cancel k (by decide)
  have hsettle : settle (all.map Reading.value) (all.map Reading.conf)
      (all.length / frameLogicalBits) extended o =
      some (bytesFrom (flipAt (all.map Reading.value) combo) (all.length / frameLogicalBits),
        combo.length, 0) := by
    rw [settle, if_neg (by omega), if_neg (by rw [hcrc]; decide), if_pos hrepair, repair, hsearch]
    rfl
  have hne : bytesFrom (flipAt (all.map Reading.value) combo)
      (all.length / frameLogicalBits) ≠ [] := by
    apply List.ne_nil_of_length_pos
    rw [length_bytesFrom, hk]
    exact hpos
  obtain ⟨r, hr, -⟩ := judge_of_settle bits pos ts hsettle hne hhops
  exact ⟨r, recoverFrom_some.mpr ⟨extended, all, hread, hr⟩⟩

theorem mapM_ok_iff {α β ε : Type} {f : α → Except ε β} {l : List α} {out : List β} :
    l.mapM f = .ok out ↔ List.Forall₂ (fun a b => f a = .ok b) l out := by
  induction l generalizing out with
  | nil => cases out <;> simp [pure, Except.pure]
  | cons a l ih =>
      rw [List.mapM_cons]
      cases ha : f a with
      | error e =>
          constructor
          · intro h
            cases h
          · intro h
            cases h with
            | cons hb _ => simp [ha] at hb
      | ok b =>
          cases hl : l.mapM f with
          | error e =>
              constructor
              · intro h
                cases h
              · intro h
                cases h with
                | cons _ hrest => simp [ih.mpr hrest] at hl
          | ok bs =>
              have hrest := ih.mp hl
              constructor
              · intro h
                obtain rfl : b :: bs = out := by
                  simpa [bind, Except.bind, pure, Except.pure] using h
                exact .cons ha hrest
              · intro h
                cases h with
                | @cons _ c _ cs hb hcs =>
                    obtain rfl : b = c := by simpa [ha] using hb
                    obtain rfl : bs = cs := by simpa [hl] using ih.mpr hcs
                    rfl

theorem recoverPackets_none (line : Bits) (soft : Option (List ℚ)) (ts : Option Time)
    (o : RecoverOptions) :
    recoverPackets line soft ts none o = .ok (firstOfEach (fun r => r.packet.data) []
      ((findHeaders line).2.filterMap
        (fun pos => recoverAtOffset (findHeaders line).1 (alignedSoft line soft) pos ts o))) := by
  have hrun : (offsets line none).mapM (fun pos =>
      recoverFrom (findHeaders line).1 (alignedSoft line soft) pos ts o) =
      .ok ((findHeaders line).2.map
        (fun pos => recoverAtOffset (findHeaders line).1 (alignedSoft line soft) pos ts o)) := by
    rw [mapM_ok_iff, offsets, List.forall₂_map_left_iff, List.forall₂_map_right_iff,
      List.forall₂_same]
    intro pos _
    exact recoverFrom_natCast _ _ _ _ _
  rw [recoverPackets, hrun]
  simp only [bind, Except.bind, pure, Except.pure, List.filterMap_map]
  rfl

theorem recoverPackets_found {line : Bits} {soft : Option (List ℚ)} {ts : Option Time}
    {header_index : Option ℤ} {o : RecoverOptions} {out : List Recovered}
    (h : recoverPackets line soft ts header_index o = .ok out) :
    ∃ found, (offsets line header_index).mapM (fun pos =>
        recoverFrom (findHeaders line).1 (alignedSoft line soft) pos ts o) = .ok found ∧
      firstOfEach (fun r => r.packet.data) [] (found.filterMap id) = out := by
  rw [recoverPackets] at h
  cases hfound : (offsets line header_index).mapM (fun pos =>
      recoverFrom (findHeaders line).1 (alignedSoft line soft) pos ts o) with
  | error e => simp [hfound, bind, Except.bind] at h
  | ok found =>
      refine ⟨found, rfl, ?_⟩
      simpa [hfound, bind, Except.bind, pure, Except.pure] using h

/-- What a burst's recovery answers, in terms of the offsets it tries. -/
theorem recoverPackets_ok {line : Bits} {soft : Option (List ℚ)} {ts : Option Time}
    {header_index : Option ℤ} {o : RecoverOptions} {out : List Recovered}
    (h : recoverPackets line soft ts header_index o = .ok out) :
    (∀ r ∈ out, ∃ pos ∈ offsets line header_index,
      recoverFrom (findHeaders line).1 (alignedSoft line soft) pos ts o = .ok (some r)) ∧
    (∀ pos ∈ offsets line header_index, ∀ r,
      recoverFrom (findHeaders line).1 (alignedSoft line soft) pos ts o = .ok (some r) →
      ∃ r' ∈ out, r'.packet.data = r.packet.data) := by
  obtain ⟨found, hfound, rfl⟩ := recoverPackets_found h
  have hall := mapM_ok_iff.mp hfound
  constructor
  · intro r hr
    have hmem := mem_of_mem_firstOfEach hr
    rw [List.mem_filterMap] at hmem
    obtain ⟨x, hx, rfl⟩ := hmem
    obtain ⟨i, hi, hget⟩ := List.getElem_of_mem hx
    have hi' : i < (offsets line header_index).length := by
      rw [hall.length_eq]
      exact hi
    exact ⟨_, List.getElem_mem hi', hget ▸ hall.get hi' hi⟩
  · intro pos hpos r hr
    obtain ⟨i, hi, rfl⟩ := List.getElem_of_mem hpos
    have hi' : i < found.length := by
      rw [← hall.length_eq]
      exact hi
    have hget : found[i] = some r := by
      have hok := hall.get hi hi'
      rw [List.get_eq_getElem, List.get_eq_getElem, hr] at hok
      exact (Except.ok.inj hok).symm
    have hmem : r ∈ found.filterMap id := by
      rw [List.mem_filterMap]
      exact ⟨some r, hget ▸ List.getElem_mem hi', rfl⟩
    obtain ⟨u, v, hsplit⟩ := List.append_of_mem hmem
    obtain ⟨b, hb, hkey, -⟩ := firstOfEach_first (fun r => r.packet.data) [] u v r
      List.not_mem_nil
    exact ⟨b, by rw [hsplit]; exact hb, hkey⟩

theorem recoverPackets_distinct {line : Bits} {soft : Option (List ℚ)} {ts : Option Time}
    {header_index : Option ℤ} {o : RecoverOptions} {out : List Recovered}
    (h : recoverPackets line soft ts header_index o = .ok out) :
    (out.map (fun r => r.packet.data)).Nodup := by
  obtain ⟨found, -, rfl⟩ := recoverPackets_found h
  exact (nodup_firstOfEach _ [] _).1

@[simp] theorem length_hardSoft (bits : Bits) : (hardSoft bits).length = bits.length := by
  simp [hardSoft]

@[simp] theorem length_softFor (bits : Bits) (soft : Option (List ℚ)) :
    (softFor bits soft).length = bits.length := by
  unfold softFor
  cases soft with
  | none => simp
  | some v =>
      by_cases h : bits.length ≤ v.length
      · simp [h]
      · simp [h]

@[simp] theorem length_alignedSoft (line : Bits) (soft : Option (List ℚ)) :
    (alignedSoft line soft).length = line.length := by
  rw [alignedSoft]
  split_ifs <;> simp

/-- Recovery answers with sound packets exactly where no accepted repair flips the EXT bit. -/
theorem recovered_sound_iff (bits : Bits) (soft : Option (List ℚ)) (ts : Option Time)
    (o : RecoverOptions) :
    (∀ pos result, recoverAt bits soft pos ts o = .ok result →
      ((∀ r, result = some r → SoundAt bits.length pos r.packet) ↔
        ¬ FlipsExt (softFor bits soft) pos o)) ∧
    (∀ header_index out, recoverPackets bits soft ts header_index o = .ok out →
      ((∀ r ∈ out, ∃ pos ∈ offsets bits header_index,
          recoverFrom (findHeaders bits).1 (alignedSoft bits soft) pos ts o = .ok (some r) ∧
          SoundAt bits.length pos r.packet) ↔
        ∀ pos ∈ offsets bits header_index, ¬ FlipsExt (alignedSoft bits soft) pos o)) := by
  constructor
  · intro pos result h
    rw [recoverAt] at h
    constructor
    · intro hsound hflip
      obtain ⟨r, hr⟩ := recoverFrom_of_flipsExt hflip bits ts
      rw [hr] at h
      have hs := hsound r (Except.ok.inj h).symm
      rw [← length_softFor bits soft, soundAt_iff hr] at hs
      exact hs hflip
    · rintro hkeep r rfl
      rw [← length_softFor bits soft]
      exact (soundAt_iff h).mpr hkeep
  · intro header_index out h
    obtain ⟨hfrom, hto⟩ := recoverPackets_ok h
    constructor
    · intro hsound pos hpos hflip
      obtain ⟨r, hr⟩ := recoverFrom_of_flipsExt hflip (findHeaders bits).1 ts
      obtain ⟨r', hr', hdata⟩ := hto pos hpos r hr
      obtain ⟨pos', -, -, hs⟩ := hsound r' hr'
      obtain ⟨extended, all, ha⟩ := answer_of_recoverFrom hr
      obtain ⟨-, hkind⟩ | ⟨hkeep, -⟩ := ha.kind
      · -- Equal packets stand or fall together.
        have hcrc : crcOk r'.packet.data extended = true := by
          rw [hdata]
          exact ha.crc
        have hlen : r'.packet.data.length ≤ fullLen extended := by
          rw [hdata]
          exact ha.le_full
        have hclash : r'.packet.extended = !extended := by
          rw [Packet.extended, Packet.flagsByte, hdata]
          exact hkind
        exact not_sound_of_crcOk hcrc hlen hclash _ _ hs
      · exact hkeep hflip
    · intro hkeep r hr
      obtain ⟨pos, hpos, hrec⟩ := hfrom r hr
      refine ⟨pos, hpos, hrec, ?_⟩
      rw [← length_alignedSoft bits soft]
      exact (soundAt_iff hrec).mpr (hkeep pos hpos)

/-- A standard packet with a wrong CRC byte and one wrong symbol, in the pair of the EXT
bit. With that bit set, the thirteen bytes have the CRC that stands in byte 9. -/
def phantomLine : Bits :=
  flipAt ((onAir (Packet.ofBytes 0x0F#8 [0x07#8, 0x93#8, 0x2B#8, 0x1D#8, 0x50#8, 0x33#8, 0x11#8,
    0xFF#8, 0x2C#8, 0x00#8, 0x00#8, 0x40#8])).drop 15) [25]

theorem phantom_run : ∃ r, recoverPackets phantomLine none none none {} = .ok [r] ∧
    recoverAt phantomLine none 0 none {} = .ok (some r) ∧
    r.packet.extended = true ∧ r.packet.data.length = 13 ∧ r.packet.crcOk = none := by
  have hheader : findHeaders phantomLine = (phantomLine, [0]) := by decide +kernel
  have hread : (recoverAtOffset phantomLine (softFor phantomLine none) 0 none {}).map
      (fun r => (r.packet.extended, r.packet.data.length, r.packet.crcOk)) =
      some (true, 13, none) := by
    decide +kernel
  obtain ⟨r, hr, hfields⟩ := Option.map_eq_some_iff.mp hread
  have hsoft : alignedSoft phantomLine none = softFor phantomLine none := by
    rw [alignedSoft, hheader]
    simp
  refine ⟨r, ?_, ?_, by simpa using hfields⟩
  · rw [recoverPackets_none, hheader, hsoft]
    simp only [List.filterMap_cons, hr, List.filterMap_nil]
    rfl
  · rw [recoverAt, ← Nat.cast_zero, recoverFrom_natCast, hr]

theorem recovered_sound_iff_phantom :
    FlipsExt (softFor phantomLine none) 0 {} ∧
      ¬ ∀ pos ∈ offsets phantomLine none, ¬ FlipsExt (alignedSoft phantomLine none) pos {} := by
  obtain ⟨r, hout, hat, -, -, hcrc⟩ := phantom_run
  obtain ⟨hone, hburst⟩ := recovered_sound_iff phantomLine none none {}
  constructor
  · by_contra hkeep
    have hsound := (hone 0 (some r) hat).mpr hkeep r rfl
    rw [hsound.crc] at hcrc
    cases hcrc
  · intro hkeep
    obtain ⟨pos, -, -, hsound⟩ := (hburst none [r] hout).mpr hkeep r List.mem_cons_self
    rw [hsound.crc] at hcrc
    cases hcrc

/-- The repair makes an extended packet of it, too short to have a CRC at all. -/
theorem recoverPackets_phantom :
    ¬ (∀ (bits : Bits) (soft : Option (List ℚ)) (header_index : Option ℤ) (o : RecoverOptions)
      (out : List Recovered), recoverPackets bits soft none header_index o = .ok out →
        ∀ r ∈ out, r.packet.crcOk = some true) ∧
    ¬ (∀ (bits : Bits) (soft : Option (List ℚ)) (pos : ℤ) (o : RecoverOptions) (r : Recovered),
      recoverAt bits soft pos none o = .ok (some r) → r.packet.crcOk = some true) := by
  obtain ⟨r, hout, hat, -, -, hcrc⟩ := phantom_run
  constructor
  · intro hclaim
    rw [hclaim phantomLine none none {} [r] hout r List.mem_cons_self] at hcrc
    cases hcrc
  · intro hclaim
    rw [hclaim phantomLine none 0 {} r hat] at hcrc
    cases hcrc

end Recover

end InsteonRf
