import InsteonRf.MqttPublish
import InsteonRf.RecoverAgreement
import InsteonRf.Message

/-!
# From one receiver to the host

The start header of a whole message is the only one near it: a header holds three equal
symbols in a row, and these occur nowhere but at a frame marker. So the publisher cuts the
burst right behind the header, what it ships does not begin with another, and the host puts
the same header back.
-/
namespace InsteonRf.Mqtt
open LsbBits StringSearch OrderedDict

def polarised (inverted : Bool) (bits : Bits) : Bits := if inverted then invertBits bits else bits

@[simp] theorem polarised_polarised (inverted : Bool) (bits : Bits) :
    polarised inverted (polarised inverted bits) = bits := by
  cases inverted
  · rfl
  · exact invertBits_invertBits bits

theorem polarised_append (inverted : Bool) (a b : Bits) :
    polarised inverted (a ++ b) = polarised inverted a ++ polarised inverted b := by
  cases inverted
  · rfl
  · exact invertBits_append a b

theorem occursAt_polarised {inverted : Bool} {pat text : Bits} {i : ℕ} :
    OccursAt pat (polarised inverted text) i ↔ OccursAt (polarised inverted pat) text i := by
  cases inverted
  · exact Iff.rfl
  · exact occursAt_invert

def IsHeader (header : Bits) : Prop := header = startHeader ∨ header = startHeaderInv

theorem isHeader_polarised {header : Bits} (h : IsHeader header) (inverted : Bool) :
    IsHeader (polarised inverted header) := by
  cases inverted
  · exact h
  · rcases h with rfl | rfl
    · exact Or.inr rfl
    · exact Or.inl rfl

theorem length_header {header : Bits} (h : IsHeader header) : header.length = 16 := by
  rcases h with rfl | rfl <;> rfl

/-- A message from its start header to the third bit of its first byte. -/
def messageHead (x y z : Bool) : Bits := startHeader ++ true :: manchesterEncode [x, y, z]

theorem messageHead_prefix {p : Packet} (h : p.Valid) :
    ∃ x y z, messageHead x y z <+: p.messageBits := by
  rw [Packet.messageBits_eq h.fits, canonicalFrames]
  cases hdata : p.data with
  | nil => exact absurd hdata p.data_ne
  | cons b data =>
      have hbits : lsbBits 5 31 ++ lsbBits 8 b.toNat = lsbBits 5 31 ++
          ([b.toNat.testBit 0, b.toNat.testBit 1, b.toNat.testBit 2] ++
            (lsbBits 8 b.toNat).drop 3) := rfl
      have hindex : (manchesterEncode preamble).drop 15 ++ ([true, true] ++
          manchesterEncode (lsbBits 5 31)) = startHeader ++ [true] := by decide
      refine ⟨b.toNat.testBit 0, b.toNat.testBit 1, b.toNat.testBit 2, ?_⟩
      rw [expectedIndexes, List.zipWith_cons_cons, List.flatten_cons, frame, hbits,
        manchesterEncode_append, manchesterEncode_append, messageHead, List.append_cons, ← hindex]
      simp only [List.append_assoc]
      exact ⟨_, rfl⟩

theorem header_messageHead : ∀ x y z, ∀ header ∈ [startHeader, startHeaderInv], ∀ k < 17,
    OccursAt (header.take 7) (messageHead x y z) k → k = 0 ∧ header = startHeader := by
  decide

/-- Up to sixteen symbols behind the start header of a message there is no other. -/
theorem header_near_message {p : Packet} (h : p.Valid) {rest header : Bits} {k : ℕ}
    (hheader : IsHeader header) (hk : k ≤ 16)
    (hocc : OccursAt header (p.messageBits ++ rest) k) : k = 0 ∧ header = startHeader := by
  obtain ⟨x, y, z, tail, htail⟩ := messageHead_prefix h
  have hlength : (messageHead x y z).length = 23 := by
    cases x <;> cases y <;> cases z <;> rfl
  have hhead : OccursAt (header.take 7) (messageHead x y z) k := by
    rw [OccursAt, ← htail, List.append_assoc, List.drop_append_of_le_length (by omega)] at hocc
    rw [OccursAt]
    refine List.prefix_of_prefix_length_le ((List.take_prefix 7 header).trans hocc)
      (List.prefix_append _ _) ?_
    rw [List.length_take, length_header hheader, List.length_drop]
    omega
  exact header_messageHead x y z header (by rcases hheader with rfl | rfl <;> simp) k (by omega)
    hhead

theorem header_near_polarised {p : Packet} (h : p.Valid) {inverted : Bool} {rest header : Bits}
    {k : ℕ} (hheader : IsHeader header) (hk : k ≤ 16)
    (hocc : OccursAt header (polarised inverted p.messageBits ++ rest) k) :
    k = 0 ∧ header = polarised inverted startHeader := by
  have hback : polarised inverted p.messageBits ++ rest =
      polarised inverted (p.messageBits ++ polarised inverted rest) := by
    rw [polarised_append, polarised_polarised]
  rw [hback, occursAt_polarised] at hocc
  obtain ⟨hzero, heq⟩ := header_near_message h (isHeader_polarised hheader inverted) hk hocc
  exact ⟨hzero, by rw [← heq, polarised_polarised]⟩

theorem header_polarised {p : Packet} (h : p.Valid) (inverted : Bool) (rest : Bits) :
    polarised inverted startHeader <+: polarised inverted p.messageBits ++ rest := by
  have hback : polarised inverted p.messageBits ++ rest =
      polarised inverted (p.messageBits ++ polarised inverted rest) := by
    rw [polarised_append, polarised_polarised]
  have hocc : OccursAt (polarised inverted startHeader)
      (polarised inverted (p.messageBits ++ polarised inverted rest)) 0 := by
    rw [occursAt_polarised, polarised_polarised]
    exact Packet.header_messageBits h _
  rw [hback]
  exact hocc

/-- The header at `n` is the only one up to sixteen symbols behind it. -/
structure OnlyHeader (bits : Bits) (n : ℕ) (header : Bits) : Prop where
  isHeader : IsHeader header
  occurs : OccursAt header bits n
  only : ∀ other, IsHeader other → ∀ i ≤ n + 16, OccursAt other bits i → i = n ∧ other = header

theorem OnlyHeader.find_own {bits header : Bits} {n : ℕ} (h : OnlyHeader bits n header) :
    find header bits 0 = some n := by
  apply find_of_first (Nat.zero_le n) h.occurs
  intro i _ hi hocc
  obtain ⟨rfl, -⟩ := h.only header h.isHeader i (by omega) hocc
  omega

theorem OnlyHeader.find_other {bits header other : Bits} {n i : ℕ} (h : OnlyHeader bits n header)
    (hother : IsHeader other) (hne : other ≠ header) (hfind : find other bits 0 = some i) :
    n < i := by
  obtain ⟨-, hocc, -⟩ := find_eq_some hfind
  by_contra hle
  exact hne (h.only other hother i (by omega) hocc).2

theorem firstHeader_of_only {bits header : Bits} {n : ℕ} (h : OnlyHeader bits n header) :
    firstHeader bits = (some n, header) := by
  have hown := h.find_own
  rcases h.isHeader with rfl | rfl
  · rw [firstHeader, hown]
    cases hother : find startHeaderInv bits 0 with
    | none => rfl
    | some i =>
        have hlt := h.find_other (Or.inr rfl) (by decide) hother
        simp [hlt]
  · rw [firstHeader, hown]
    cases hother : find startHeader bits 0 with
    | none => rfl
    | some i =>
        have hlt := h.find_other (Or.inl rfl) (by decide) hother
        simp [Nat.lt_asymm hlt]

theorem mem_nearHeaders {bits : Bits} {h : ℕ} {e : ℕ × ℕ × Bits} :
    e ∈ nearHeaders bits h ↔ e.1 = ((e.2.1 : ℤ) - h).natAbs ∧ IsHeader e.2.2 ∧
      OccursAt e.2.2 bits e.2.1 ∧ h - headerSnap ≤ e.2.1 ∧ e.2.1 ≤ h + headerSnap ∧
      e.2.1 ≤ bits.length - startHeader.length := by
  obtain ⟨d, i, header⟩ := e
  simp only [nearHeaders, List.mem_flatMap, List.mem_filter, List.mem_range, List.mem_map,
    List.mem_cons, List.not_mem_nil, or_false, decide_eq_true_eq, Prod.mk.injEq, IsHeader]
  constructor
  · rintro ⟨j, ⟨hlt, hge⟩, hd, ⟨hkind, hocc⟩, rfl, rfl, rfl⟩
    exact ⟨rfl, hkind.symm, hocc, hge, by omega, by omega⟩
  · rintro ⟨rfl, hkind, hocc, hge, hle, hlast⟩
    exact ⟨i, ⟨by omega, hge⟩, header, ⟨hkind.symm, hocc⟩, rfl, rfl, rfl⟩

theorem nearest_of_unique {found : List (ℕ × ℕ × Bits)} {e : ℕ × ℕ × Bits} (hmem : e ∈ found)
    (honly : ∀ f ∈ found, f = e) : nearest found = some e := by
  have hmin : (found.map (fun e => toLex (e.1, toLex e.2))).min? = some (toLex (e.1, toLex e.2)) := by
    rw [List.min?_eq_some_iff]
    refine ⟨List.mem_map_of_mem hmem, ?_⟩
    intro b hb
    obtain ⟨f, hf, rfl⟩ := List.mem_map.mp hb
    rw [honly f hf]
  rw [nearest, hmin]
  rfl

theorem snapHeader_of_only {bits header : Bits} {n h : ℕ} (hn : OnlyHeader bits n header)
    (hle : n ≤ h + headerSnap) (hge : h ≤ n + headerSnap) : snapHeader bits h = (n, header) := by
  have hbound := hn.occurs.bound (List.ne_nil_of_length_pos (by
    rw [length_header hn.isHeader]
    decide))
  rw [length_header hn.isHeader] at hbound
  have hstart : startHeader.length = 16 := rfl
  have hnear : nearest (nearHeaders bits h) = some (((n : ℤ) - h).natAbs, n, header) := by
    apply nearest_of_unique
    · have hlow : h - headerSnap ≤ n := by
        rw [headerSnap] at hge ⊢
        omega
      have hlast : n ≤ bits.length - startHeader.length := by
        rw [hstart]
        omega
      exact mem_nearHeaders.mpr ⟨rfl, hn.isHeader, hn.occurs, hlow, hle, hlast⟩
    · intro e he
      obtain ⟨d, i, other⟩ := e
      obtain ⟨hd, hkind, hocc, -, hi, -⟩ := mem_nearHeaders.mp he
      simp only [headerSnap] at hd hkind hocc hi hge
      obtain ⟨rfl, rfl⟩ := hn.only other hkind i (by omega) hocc
      rw [hd]
  unfold snapHeader
  generalize nearest (nearHeaders bits h) = found at hnear ⊢
  rw [hnear]

/-- The correlator may be off by two preamble cells: the publisher finds the header. -/
theorem burstHeader_of_only {bits header : Bits} {n : ℕ} (h : OnlyHeader bits n header)
    (header_index : Option ℤ) (hindex : ∀ i ∈ header_index, |i - n| ≤ headerSnap) :
    burstHeader bits header_index = (some n, header) := by
  cases header_index with
  | none => exact firstHeader_of_only h
  | some i =>
      have hsnap := abs_le.mp (hindex i rfl)
      simp only [headerSnap] at hsnap
      rw [burstHeader]
      split_ifs with hin
      · have hback : snapHeader bits i.toNat = (n, header) := by
          apply snapHeader_of_only h <;> simp only [headerSnap] <;> omega
        simp only [hback]
      · exact firstHeader_of_only h

theorem bitsFromBytes_chunks {l : Bits} {m : ℕ} (h : l.length = 8 * m) :
    bitsFromBytes ((List.range m).map (fun i =>
      BitVec.ofNat 8 (ofMsbBits ((l.drop (8 * i)).take 8)))) = l := by
  induction m generalizing l with
  | zero => exact (List.length_eq_zero_iff.mp h).symm
  | succ m ih =>
      have hfirst : (l.take 8).length = 8 := by
        rw [List.length_take]
        omega
      have hlt := ofMsbBits_lt (l.take 8)
      have hback := msbBits_ofMsbBits (l.take 8)
      rw [hfirst] at hlt hback
      have hrest := ih (l := l.drop 8) (by rw [List.length_drop]; omega)
      have hshift : ∀ i, (l.drop (8 * (i + 1))).take 8 = ((l.drop 8).drop (8 * i)).take 8 := by
        intro i
        rw [List.drop_drop, Nat.mul_succ, Nat.add_comm]
      rw [List.range_succ_eq_map, List.map_cons, List.map_map, bitsFromBytes, List.flatMap_cons]
      simp only [Function.comp_def, Nat.succ_eq_add_one, hshift, Nat.mul_zero, List.drop_zero,
        BitVec.toNat_ofNat, Nat.mod_eq_of_lt hlt, hback]
      rw [← bitsFromBytes, hrest, List.take_append_drop]

theorem length_padded (bits : Bits) :
    (bits ++ List.replicate (padCount bits.length) false).length = 8 * ((bits.length + 7) / 8) := by
  rw [List.length_append, List.length_replicate, padCount]
  omega

theorem padCount_lt (n : ℕ) : padCount n < 8 := Nat.mod_lt _ (by decide)

theorem bitsFromBytes_bytesFromBits (bits : Bits) :
    bitsFromBytes (bytesFromBits bits) = bits ++ List.replicate (padCount bits.length) false := by
  have hlen := length_padded bits
  have hcount : (bits ++ List.replicate (padCount bits.length) false).length / 8 =
      (bits.length + 7) / 8 := by
    rw [hlen]
    exact Nat.mul_div_cancel_left _ (by decide)
  rw [bytesFromBits]
  simp only [hcount]
  exact bitsFromBytes_chunks hlen

theorem length_bytesFromBits (bits : Bits) :
    (bytesFromBits bits).length = (bits.length + 7) / 8 := by
  have hlen := congrArg List.length (bitsFromBytes_bytesFromBits bits)
  rw [length_bitsFromBytes, length_padded] at hlen
  omega

theorem softFromBytes_softToBytes (v : List ℚ) :
    softFromBytes (softToBytes v) = v.map (fun x => (quantise x : ℚ) / softScale) := by
  rw [softFromBytes, softToBytes, List.map_map]
  apply List.map_congr_left
  intro x _
  have hlow : -127 ≤ quantise x := le_max_left _ _
  have hhigh : quantise x ≤ 127 := max_le (by decide) (min_le_left _ _)
  have hbyte : (BitVec.ofInt 8 (quantise x)).toInt = quantise x := by
    rw [BitVec.toInt_ofInt, Int.bmod_eq_of_le] <;> omega
  simp only [Function.comp_apply, hbyte]

theorem softFromBytes_zeros (n : ℕ) :
    softFromBytes (List.replicate n (0 : Byte)) = List.replicate n 0 := by
  rw [softFromBytes, List.map_replicate]
  simp

theorem syncWord_header (decimal : Char → Option ℕ) {header : Bits} (h : IsHeader header) :
    syncWord decimal (.str (HexText.hex4 (ofMsbBits header))) = some (ofMsbBits header : ℤ) := by
  have hall : (HexText.hex4 (ofMsbBits header)).toList.all (fun c => decide (c.toNat < 127)) =
      true := by
    rcases h with rfl | rfl <;> decide
  have hascii : ∀ c ∈ (HexText.hex4 (ofMsbBits header)).toList, c.toNat < 127 :=
    fun c hc => of_decide_eq_true (List.all_eq_true.mp hall c hc)
  change HexText.int16 decimal _ = _
  rw [HexText.int16_of_ascii hascii]
  rcases h with rfl | rfl <;> decide

theorem syncHeader_header {header : Bits} (h : IsHeader header) :
    syncHeader (some (ofMsbBits header : ℤ)) = header := by
  rcases h with rfl | rfl <;> rfl

theorem toInt_scale_lt {x : Double} {n t : ℤ} (h : (x.scale n).toInt = .ok t) : t < doubleLimit := by
  have hpos : 0 < doubleLimit := lt_doubleLimit (by decide)
  cases x with
  | nan => cases h
  | inf negative => cases h
  | finite q =>
      rw [Double.scale] at h
      split_ifs at h with hfits
      · have hupper := (abs_lt.mp hfits).2
        have ht := Except.ok.inj h
        split_ifs at ht with hsign
        · rw [← ht]
          exact Int.floor_lt.mpr hupper
        · rw [← ht]
          have hneg : ⌈q * n⌉ ≤ 0 := Int.ceil_le.mpr (by push_cast; linarith)
          omega
      · cases h

theorem optionalFloat_fits (x : Option Double) : ¬ Oversized (optionalFloat x) := by
  rintro ⟨n, hn, -⟩
  cases x <;> cases hn

section Record
variable (bits header : Bits) (soft : Option (List ℚ)) (t : ℤ) (info : BurstInfo)

theorem field_b : Json.field (captureMembers bits header soft t info) "b" =
    base64Text (bytesFromBits bits) := rfl

theorem field_sw : Json.field (captureMembers bits header soft t info) "sw" =
    .str (HexText.hex4 (ofMsbBits header)) := rfl

theorem field_s {v : List ℚ} (hsoft : soft = some v) (hle : bits.length ≤ v.length) :
    Json.field (captureMembers bits header soft t info) "s" =
      base64Text (softToBytes (v.take bits.length) ++
        List.replicate (padCount bits.length) 0) := by
  rw [hsoft, captureMembers, softMember, if_pos hle]
  rfl

theorem field_snr : Json.field (captureMembers bits header soft t info) "snr" =
    optionalFloat (info.snr_db.map Double.roundTenth) := by
  have hrest : Json.field (captureMembers bits header soft t info) "snr" =
      Json.field (snrMember info.snr_db) "snr" := by
    rw [captureMembers]
    cases soft with
    | none => rfl
    | some v =>
        rw [softMember]
        split_ifs <;> rfl
  rw [hrest, snrMember]
  cases info.snr_db <;> rfl

theorem fits_captureMembers (ht : t < doubleLimit) :
    Fits (captureMembers bits header soft t info) := by
  constructor
  · rintro ⟨m, hm, hle⟩
    have hsame : Json.int t = Json.int m := hm
    cases hsame
    exact absurd ht (not_lt.mpr hle)
  · exact optionalFloat_fits info.rssi_dbm
  · rw [field_snr]
    exact optionalFloat_fits _

end Record

/-- A burst is shipped from behind its header. -/
theorem captureRecord_ok {bits header : Bits} {n : ℕ} {soft : Option (List ℚ)}
    {header_index : Option ℤ} {info : BurstInfo} {record : List (String × Json)}
    (hheader : burstHeader bits header_index = (some n, header))
    (h : captureRecord bits soft header_index info = .ok record) :
    ∃ t < doubleLimit, record = captureMembers (bits.drop (n + header.length)) header
      (soft.map (List.drop (n + header.length))) t info := by
  rw [captureRecord, hheader] at h
  obtain ⟨t, ht, h⟩ := bind_eq_ok h
  exact ⟨t, toInt_scale_lt ht, (Except.ok.inj h).symm⟩

theorem parseBits_polarised {p : Packet} (h : p.Valid) (inverted : Bool) (rest : Bits)
    (ts : Option Time) :
    ∃ q qs, parseBits (polarised inverted p.messageBits ++ rest) ts 4 = q :: qs ∧
      ReadBack p q := by
  have hback : polarised inverted p.messageBits ++ rest =
      polarised inverted (p.messageBits ++ polarised inverted rest) := by
    rw [polarised_append, polarised_polarised]
  obtain ⟨q, hq, hread⟩ := Packet.parseAt_messageBits h ts [] (polarised inverted rest)
  rw [List.nil_append, List.length_nil] at hq
  rw [hback]
  generalize hbits : p.messageBits ++ polarised inverted rest = bits at hq
  have hheader : find startHeader bits 0 = some 0 := by
    apply find_of_first le_rfl
    · rw [← hbits]
      exact Packet.header_messageBits h _
    · exact fun i _ hi => absurd hi (Nat.not_lt_zero i)
  have hlate : ∀ j, find startHeaderInv bits 0 = some j → 0 < j := by
    intro j hj
    obtain ⟨-, hocc, -⟩ := find_eq_some hj
    by_contra hle
    rw [← hbits] at hocc
    have hown := header_near_message h (Or.inr rfl) (by omega) hocc
    exact absurd hown.2 (by decide)
  refine ⟨q, (findAll startHeader bits bits.length startHeader.length).filterMap
    (parseAt bits ts 4), ?_, hread⟩
  have hfound := findHeaders_of_first hheader hlate inverted
  change findHeaders (polarised inverted bits) = _ at hfound
  rw [parseBits, hfound]
  simp only [findAll, hheader, Nat.zero_add, List.filterMap_cons, hq]

theorem onlyHeader_of_message {p : Packet} (h : p.Valid) {inverted : Bool} {lead trail : Bits}
    (hfirst : ∀ header, IsHeader header → ∀ i < lead.length,
      ¬ OccursAt header (lead ++ (polarised inverted p.messageBits ++ trail)) i) :
    OnlyHeader (lead ++ (polarised inverted p.messageBits ++ trail)) lead.length
      (polarised inverted startHeader) := by
  refine ⟨isHeader_polarised (Or.inl rfl) inverted, ?_, ?_⟩
  · rw [OccursAt, List.drop_left]
    exact header_polarised h inverted trail
  · intro other hother i hi hocc
    by_cases hlt : i < lead.length
    · exact absurd hocc (hfirst other hother i hlt)
    · obtain ⟨k, rfl⟩ := Nat.exists_eq_add_of_le (Nat.not_lt.mp hlt)
      obtain ⟨rfl, heq⟩ := header_near_polarised h hother (by omega) (occursAt_append.mp hocc)
      exact ⟨rfl, heq⟩

theorem withSyncHeader_absent {header bits : Bits} (hheader : IsHeader header)
    (habsent : ∀ other, IsHeader other → ¬ other <+: bits) :
    withSyncHeader bits (some (ofMsbBits header : ℤ)) = header ++ bits := by
  have hno : startsWithHeader bits = false := by
    rw [startsWithHeader, Bool.or_eq_false_iff]
    constructor
    · rw [Bool.eq_false_iff, Ne, List.isPrefixOf_iff_prefix]
      exact habsent _ (Or.inl rfl)
    · rw [Bool.eq_false_iff, Ne, List.isPrefixOf_iff_prefix]
      exact habsent _ (Or.inr rfl)
  rw [withSyncHeader, hno, syncHeader_header hheader]
  rfl

/-- What follows the header of a message does not begin with another: the host puts back the
header that was cut off. -/
theorem withSyncHeader_cut {p : Packet} (h : p.Valid) (inverted : Bool) (trail : Bits) :
    withSyncHeader ((polarised inverted p.messageBits ++ trail).drop 16)
        (some (ofMsbBits (polarised inverted startHeader) : ℤ)) =
      polarised inverted p.messageBits ++ trail := by
  have hheader : IsHeader (polarised inverted startHeader) := isHeader_polarised (Or.inl rfl) _
  have habsent : ∀ header, IsHeader header →
      ¬ header <+: (polarised inverted p.messageBits ++ trail).drop 16 := by
    intro header hkind hocc
    exact absurd (header_near_polarised h hkind le_rfl hocc).1 (by decide)
  obtain ⟨tail, htail⟩ := header_polarised h inverted trail
  rw [withSyncHeader_absent hheader habsent, ← htail, List.drop_left' (length_header hheader)]

/-- The soft values of a cut burst arrive behind those of the header that was put back. -/
theorem captureSoft_cut {b64decode : String → Option (List Byte)}
    (hb64 : ∀ data, b64decode (String.ofList (Base64.encode data)) = some data) (header : Bits)
    {fifo : Bits} {v : List ℚ} (hlen : v.length = fifo.length) :
    captureSoft b64decode (base64Text (softToBytes (v.take fifo.length) ++
        List.replicate (padCount fifo.length) 0))
      (fifo ++ List.replicate (padCount fifo.length) false)
      (header ++ (fifo ++ List.replicate (padCount fifo.length) false)) =
    some (hardSoft header ++ (v.map (fun x => (quantise x : ℚ) / softScale) ++
      List.replicate (padCount fifo.length) 0)) := by
  have htake : v.take fifo.length = v := List.take_of_length_le hlen.le
  rw [htake, base64Text, captureSoft, hb64]
  have hcount : (softToBytes v ++ List.replicate (padCount fifo.length) (0 : Byte)).length =
      (fifo ++ List.replicate (padCount fifo.length) false).length := by
    simp only [softToBytes, List.length_append, List.length_map, List.length_replicate, hlen]
  have hprefix : (header ++ (fifo ++ List.replicate (padCount fifo.length) false)).take
      ((header ++ (fifo ++ List.replicate (padCount fifo.length) false)).length -
        (fifo ++ List.replicate (padCount fifo.length) false).length) = header := by
    rw [List.length_append, Nat.add_sub_cancel, List.take_left]
  have hvalues : softFromBytes (softToBytes v ++ List.replicate (padCount fifo.length) (0 : Byte)) =
      v.map (fun x => (quantise x : ℚ) / softScale) ++
        List.replicate (padCount fifo.length) 0 := by
    rw [← softFromBytes_softToBytes, ← softFromBytes_zeros]
    exact List.map_append
  rw [Option.getD_some, if_pos hcount, hprefix, hvalues]

/-- What is shipped of a message behind a burst's lead-in. -/
theorem header_fifo {p : Packet} (h : p.Valid) (inverted : Bool) (trail : Bits) :
    polarised inverted startHeader ++ (polarised inverted p.messageBits ++ trail).drop 16 =
      polarised inverted p.messageBits ++ trail := by
  obtain ⟨tail, htail⟩ := header_polarised h inverted trail
  rw [← htail, List.drop_left' (length_header (isHeader_polarised (Or.inl rfl) _))]

theorem fifo_length_pos {p : Packet} (h : p.Valid) (inverted : Bool) (trail : Bits) :
    0 < ((polarised inverted p.messageBits ++ trail).drop 16).length := by
  have hfour := Packet.four_le_length h
  have hmessage : (polarised inverted p.messageBits).length =
      markerOffset + frameBits * p.data.length := by
    rw [← Packet.length_messageBits h.fits]
    cases inverted
    · rfl
    · exact List.length_map _
  rw [List.length_drop, List.length_append, hmessage, markerOffset, frameBits]
  omega

section Transport
variable (dumps : Json → String) (b64decode : String → Option (List Byte))
  (loads : String → Option Json) (decimal : Char → Option ℕ)

/-- The host's half: it puts back the header in front of what was shipped. -/
theorem fromPayload_captureMembers
    (hb64 : ∀ data, b64decode (String.ofList (Base64.encode data)) = some data) {p : Packet} (hp : p.Valid) (inverted : Bool) {trail fifo : Bits}
    (hfifo : (polarised inverted p.messageBits ++ trail).drop 16 = fifo)
    (hsize : fifo.length ≤ 8 * maxCaptureBytes) {soft : Option (List ℚ)} {t : ℤ}
    (ht : t < doubleLimit) {info : BurstInfo} {text : String} {record : List (String × Json)}
    (hmembers : record = captureMembers fifo (polarised inverted startHeader) soft t info)
    (hloads : loads text = some (.object record)) (topic : String) (now : Time) :
    ∃ c, fromPayload b64decode loads decimal topic text.toByteArray now = .ok (some c) ∧
      c.bits = polarised inverted startHeader ++
        (fifo ++ List.replicate (padCount fifo.length) false) ∧
      c.soft = captureSoft b64decode (Json.field record "s")
        (fifo ++ List.replicate (padCount fifo.length) false) c.bits := by
  have hheader : IsHeader (polarised inverted startHeader) := isHeader_polarised (Or.inl rfl) _
  have hpos : 0 < fifo.length := by
    rw [← hfifo]
    exact fifo_length_pos hp inverted trail
  have hraw : bytesFromBits fifo ≠ [] := by
    apply List.ne_nil_of_length_pos
    rw [length_bytesFromBits]
    omega
  have hfits : (bytesFromBits fifo).length ≤ maxCaptureBytes := by
    rw [length_bytesFromBits]
    omega
  have hb : Json.field record "b" = base64Text (bytesFromBits fifo) := by
    rw [hmembers]
    exact field_b _ _ _ _ _
  have hsw : Json.field record "sw" =
      .str (HexText.hex4 (ofMsbBits (polarised inverted startHeader))) := by
    rw [hmembers]
    exact field_sw _ _ _ _ _
  have haccepted := accepted_of_record b64decode loads hloads hb (hb64 _) hraw hfits
  have hnumbers : Fits record := by
    rw [hmembers]
    exact fits_captureMembers _ _ _ _ _ ht
  obtain ⟨c, hc, hbits, hsoft⟩ :=
    fromPayload_of_fits b64decode loads decimal topic now haccepted hnumbers
  rw [bitsFromBytes_bytesFromBits] at hbits hsoft
  have hpadded : (polarised inverted p.messageBits ++
      (trail ++ List.replicate (padCount fifo.length) false)).drop 16 =
        fifo ++ List.replicate (padCount fifo.length) false := by
    rw [← List.append_assoc, ← header_fifo hp, hfifo, List.append_assoc,
      List.drop_left' (length_header hheader)]
  refine ⟨c, hc, ?_, hsoft⟩
  rw [hbits, hsw, syncWord_header decimal hheader, ← hpadded, withSyncHeader_cut hp, header_fifo hp]

/-- A burst whose first start header is that of a whole message arrives from that header on,
filled up to a whole byte, with its soft values in place, and the message is the first
packet in it. -/
theorem capture_transport
    (hb64 : ∀ data, b64decode (String.ofList (Base64.encode data)) = some data) {p : Packet} (hp : p.Valid) (inverted : Bool) (lead trail : Bits)
    (hfirst : ∀ header, IsHeader header → ∀ i < lead.length,
      ¬ OccursAt header (lead ++ (polarised inverted p.messageBits ++ trail)) i)
    (header_index : Option ℤ) (hindex : ∀ i ∈ header_index, |i - lead.length| ≤ headerSnap)
    (hsize : ((polarised inverted p.messageBits ++ trail).drop 16).length ≤ 8 * maxCaptureBytes)
    (soft : Option (List ℚ)) (info : BurstInfo) (base : String) (topic : Option String)
    {sent : String} {payload : ByteArray}
    (hpub : publishCapture dumps base topic
      (lead ++ (polarised inverted p.messageBits ++ trail)) soft header_index info =
        .ok (sent, payload))
    (hjson : ∀ record, captureRecord (lead ++ (polarised inverted p.messageBits ++ trail)) soft
      header_index info = .ok record → loads (dumps (.object record)) = some (.object record))
    (now : Time) (ts : Option Time) :
    ∃ c pad, fromPayload b64decode loads decimal sent payload now = .ok (some c) ∧ pad < 8 ∧
      c.bits = polarised inverted p.messageBits ++ trail ++ List.replicate pad false ∧
      (∀ v, soft = some v →
        v.length = (lead ++ (polarised inverted p.messageBits ++ trail)).length →
        ∃ w, c.soft = some w ∧ w.length = c.bits.length ∧
          w = hardSoft (polarised inverted startHeader) ++
            ((v.drop (lead.length + 16)).map (fun x => (quantise x : ℚ) / softScale) ++
              List.replicate pad 0)) ∧
      ∃ q qs, parseBits c.bits ts 4 = q :: qs ∧ ReadBack p q := by
  have hheader : IsHeader (polarised inverted startHeader) := isHeader_polarised (Or.inl rfl) _
  have hcut := burstHeader_of_only (onlyHeader_of_message hp hfirst) header_index hindex
  -- what is published
  obtain ⟨record, hrecord, hsent⟩ := bind_eq_ok hpub
  have hpayload : (dumps (.object record)).toByteArray = payload :=
    congrArg Prod.snd (Except.ok.inj hsent)
  obtain ⟨t, ht, hmembers⟩ := captureRecord_ok hcut hrecord
  rw [length_header hheader, ← List.drop_drop, List.drop_left] at hmembers
  have hwhole := header_fifo hp inverted trail
  generalize hfifo : (polarised inverted p.messageBits ++ trail).drop 16 = fifo
    at hmembers hwhole hsize
  -- what is received
  obtain ⟨c, hc, hrestored, hsoft⟩ := fromPayload_captureMembers b64decode loads decimal hb64 hp
    inverted hfifo hsize ht hmembers (hjson record hrecord) sent now
  refine ⟨c, padCount fifo.length, ?_, padCount_lt _, ?_, ?_, ?_⟩
  · rw [← hpayload]
    exact hc
  · rw [hrestored, ← List.append_assoc, hwhole]
  · intro v hv hlen
    have hvlen : (v.drop (lead.length + 16)).length = fifo.length := by
      rw [List.length_drop, hlen, ← hfifo, List.length_append, List.length_drop]
      omega
    have hs : Json.field record "s" = base64Text (softToBytes ((v.drop (lead.length +
        16)).take fifo.length) ++ List.replicate (padCount fifo.length) 0) := by
      rw [hmembers, hv]
      exact field_s _ _ _ _ _ rfl hvlen.ge
    rw [hs, hrestored, captureSoft_cut hb64 _ hvlen] at hsoft
    refine ⟨_, hsoft, ?_, rfl⟩
    rw [hrestored]
    simp only [hardSoft, List.length_append, List.length_map, List.length_replicate, hvlen]
  · rw [hrestored, ← List.append_assoc, hwhole, List.append_assoc]
    exact parseBits_polarised hp inverted _ ts

end Transport

/-- An inverted message behind one symbol. -/
def sdrBurst : Bits := false :: invertBits Recover.cleanLine

def sdrInfo : BurstInfo where
  receiver := "up"
  timestamp := .finite 1
  rssi_dbm := some (.finite (-143 / 2))
  seq := 7

def sdrSoft : List ℚ := sdrBurst.map (fun b => if b then 1 / 2 else -1 / 2)

def sdrSoftText : String :=
  String.ofList (Base64.encode (softToBytes (sdrSoft.drop 17) ++ List.replicate 7 0))

def sdrRecord : List (String × Json) :=
  [("n", .str "up"), ("seq", .int 7), ("t", .int 1000), ("rssi", .float (.finite (-143 / 2))),
    ("len", .int 45), ("sw", .str "3155"),
    ("b", .str "UyqUzUqozNLLEs0zKKzNSpUqrMjS0tKTLKyostVVFKrMsMqqqpKqqqiqszMA"),
    ("s", .str sdrSoftText)]

def sdrText : String :=
  "\x7b\"n\":\"up\",\"seq\":7,\"t\":1000,\"rssi\":-71.5,\"len\":45,\"sw\":\"3155\"," ++
    "\"b\":\"UyqUzUqozNLLEs0zKKzNSpUqrMjS0tKTLKyostVVFKrMsMqqqpKqqqiqszMA\",\"s\":\"" ++
    sdrSoftText ++ "\"\x7d"

def sdrLoads (text : String) : Option Json :=
  if text = sdrText then some (.object sdrRecord) else none

theorem captureRecord_sdr :
    captureRecord sdrBurst (some sdrSoft) (some 3) sdrInfo = .ok sdrRecord := by
  have hcut : burstHeader sdrBurst (some 3) = (some 1, startHeaderInv) := by decide +kernel
  have htime : (sdrInfo.timestamp.scale 1000).toInt = .ok 1000 := by
    have hfits : |(1 : ℚ) * (1000 : ℤ)| < doubleLimit := by
      have hlimit : ((1000 : ℤ) : ℚ) < doubleLimit := by
        exact_mod_cast lt_doubleLimit (by decide)
      rw [one_mul, abs_of_pos (by norm_num)]
      exact hlimit
    rw [sdrInfo, Double.scale, if_pos hfits, Double.toInt]
    norm_num
  have hbytes : String.ofList (Base64.encode (bytesFromBits (sdrBurst.drop 17))) =
      "UyqUzUqozNLLEs0zKKzNSpUqrMjS0tKTLKyostVVFKrMsMqqqpKqqqiqszMA" := by
    decide +kernel
  have hlength : (sdrBurst.drop 17).length = 353 := by decide +kernel
  have hsw : HexText.hex4 (ofMsbBits startHeaderInv) = "3155" := by decide
  have hsum : (some 1).elim 0 (· + startHeaderInv.length) = 17 := rfl
  rw [captureRecord, hcut]
  simp only [hsum, htime]
  have hsoftlen : (sdrSoft.drop 17).length = 353 := by
    rw [List.length_drop, sdrSoft, List.length_map, ← List.length_drop, hlength]
  have hmember : softMember (sdrBurst.drop 17) (some (sdrSoft.drop 17)) =
      [("s", .str sdrSoftText)] := by
    rw [softMember]
    simp only [hlength, hsoftlen, le_refl, if_true, List.take_of_length_le hsoftlen.le]
    rfl
  change Except.ok (captureMembers (sdrBurst.drop 17) startHeaderInv (some (sdrSoft.drop 17)) 1000
    sdrInfo) = _
  rw [captureMembers, base64Text, hmember, hbytes, hlength, hsw]
  rfl

theorem capture_transport_sdr :
    ∃ c pad, fromPayload Base64.decodeText sdrLoads (fun _ => none) "insteon-rf/rx/up" sdrText.toByteArray 0 =
        .ok (some c) ∧ pad < 8 ∧
      c.bits = invertBits Recover.cleanLine ++ List.replicate pad false ∧
      (∃ w, c.soft = some w ∧ w.length = c.bits.length) ∧
      ∃ q qs, parseBits c.bits none 4 = q :: qs ∧ q.data = Recover.cleanPacket.data := by
  have hvalid : Recover.cleanPacket.Valid := by
    constructor <;> decide +kernel
  have hbits : Recover.cleanPacket.messageBits = Recover.cleanLine := by decide +kernel
  have hburst : [false] ++ (polarised true Recover.cleanPacket.messageBits ++ []) = sdrBurst := by
    rw [List.append_nil, hbits, polarised, if_pos rfl, List.singleton_append, sdrBurst]
  have hfirst : ∀ header, IsHeader header → ∀ i < [false].length, ¬ OccursAt header
      ([false] ++ (polarised true Recover.cleanPacket.messageBits ++ [])) i := by
    rw [hburst]
    intro header hkind i hi
    obtain rfl : i = 0 := by simpa using hi
    rcases hkind with rfl | rfl <;> decide +kernel
  have hlength : Recover.cleanLine.length = 369 := by decide +kernel
  have hsize : ((polarised true Recover.cleanPacket.messageBits ++ []).drop 16).length ≤
      8 * maxCaptureBytes := by
    rw [hbits, List.append_nil, List.length_drop, polarised, if_pos rfl, invertBits,
      List.length_map, hlength]
    decide
  have hpub : publishCapture (fun _ => sdrText) "insteon-rf" none
      ([false] ++ (polarised true Recover.cleanPacket.messageBits ++ [])) (some sdrSoft)
      (some 3) sdrInfo =
        .ok ("insteon-rf/rx/up", sdrText.toByteArray) := by
    rw [hburst, publishCapture, captureRecord_sdr]
    rfl
  have hjson : ∀ record, captureRecord
      ([false] ++ (polarised true Recover.cleanPacket.messageBits ++ [])) (some sdrSoft)
      (some 3) sdrInfo =
        .ok record → sdrLoads ((fun _ => sdrText) (Json.object record)) = some (.object record) := by
    intro record hrecord
    rw [hburst, captureRecord_sdr] at hrecord
    rw [← Except.ok.inj hrecord, sdrLoads, if_pos rfl]
  have hcovers : sdrSoft.length =
      ([false] ++ (polarised true Recover.cleanPacket.messageBits ++ [])).length := by
    rw [hburst, sdrSoft, List.length_map]
  obtain ⟨c, pad, hc, hpad, hcbits, hsoft, q, qs, hparse, hread⟩ :=
    capture_transport (fun _ => sdrText) Base64.decodeText sdrLoads (fun _ => none)
      Base64.decodeText_encode hvalid true [false] [] hfirst (some 3) (by simp [headerSnap]) hsize
      (some sdrSoft) sdrInfo "insteon-rf" none hpub hjson 0 none
  obtain ⟨w, hw, hwlen, -⟩ := hsoft sdrSoft rfl hcovers
  rw [List.append_nil, hbits] at hcbits
  exact ⟨c, pad, hc, hpad, hcbits, ⟨w, hw, hwlen⟩, q, qs, hparse, hread.data⟩

end InsteonRf.Mqtt
