import InsteonRf.Context
import InsteonRf.RecoverReach

/-!
# One burst, by both decoders

The packets of a burst are those that recovery finds, and then what the hard decoder has
beyond them. The second list is filtered by the bytes up to the CRC, the first is taken as
it comes.
-/
namespace InsteonRf
open Selection Recover

def keep (packets : List Packet) (show_all : Bool) : List Packet :=
  if show_all then packets else packets.filter (fun q => q.calcCrc.isSome)

/-- Everything up to and including the CRC. -/
def decodeKey (p : Packet) : List Byte := p.data.take (p.crcIndex + 1)

/-- Add a packet of the hard decoder to those found so far, with their keys. -/
def mergeKept (show_all : Bool) (acc : List Packet × List (List Byte)) (pkt : Packet) :
    List Packet × List (List Byte) :=
  -- wrong frame counters are CRC luck
  if pkt.index_ok = some false ∧ show_all = false then acc
  else if decodeKey pkt ∈ acc.2 then acc
  else (acc.1 ++ [pkt], acc.2 ++ [decodeKey pkt])

def merged (recovered : List Recovered) (kept : List Packet) (show_all : Bool) : List Packet :=
  (kept.foldl (mergeKept show_all)
    (recovered.map Recovered.packet, recovered.map (fun r => decodeKey r.packet))).1

/-- Decode a burst, recovering marginal packets when `repair` is set. The tracker reads `clock`
for packets without a time. -/
def decode (bits : Bits) (ts : Option Time) (repair show_all : Bool) (soft : Option (List ℚ))
    (header_index : Option ℤ) (tracker : Option CommandTracker) (clock : ℕ → Time) :
    Except IndexError (List Packet × Option CommandTracker) := do
  let found := parseBits bits ts 4
  if !repair then return (keep found show_all, tracker)
  let recovered ← recoverPackets bits soft ts header_index {}
  let out := merged recovered (keep found show_all) show_all
  match tracker with
  | none => return (out, none)
  | some t =>
      let observed := t.run (out.zipIdx.map (fun e => (e.1, clock e.2)))
      return (observed.2, some observed.1)

theorem decodeKey_congr {p q : Packet} (h : p.data = q.data) : decodeKey p = decodeKey q := by
  unfold decodeKey Packet.crcIndex Packet.extended Packet.flagsByte
  rw [h]

/-- The hard decoder adds no key that is there, and takes none away. -/
theorem nodup_foldl_mergeKept (show_all : Bool) (kept : List Packet) (out : List Packet) :
    ((kept.foldl (mergeKept show_all) (out, out.map decodeKey)).1.map decodeKey).Nodup ↔
      (out.map decodeKey).Nodup := by
  induction kept generalizing out with
  | nil => rfl
  | cons pkt kept ih =>
      rw [List.foldl_cons, mergeKept]
      split_ifs with hluck hseen
      · exact ih out
      · exact ih out
      · have hkeys : out.map decodeKey ++ [decodeKey pkt] = (out ++ [pkt]).map decodeKey := by simp
        simp only [hkeys]
        rw [ih, List.map_append, List.map_singleton, List.nodup_append_comm, List.singleton_append,
          List.nodup_cons]
        exact and_iff_right hseen

theorem keys_run (t : CommandTracker) (packets : List (Packet × Time)) :
    (t.run packets).2.map decodeKey = packets.map (fun e => decodeKey e.1) := by
  induction packets generalizing t with
  | nil => rfl
  | cons e packets ih =>
      obtain ⟨mark, hmark⟩ := t.observe_packet e.1 e.2
      have hrest := ih (t.observe e.1 e.2).1
      rw [CommandTracker.run] at hrest
      rw [CommandTracker.run, Machine.run_cons, List.map_cons, List.map_cons, hrest, hmark]
      rfl

theorem recovered_distinct_iff {line : Bits} {soft : Option (List ℚ)} {ts : Option Time}
    {header_index : Option ℤ} {o : RecoverOptions} {out : List Recovered}
    (h : recoverPackets line soft ts header_index o = .ok out) :
    (out.map (fun r => decodeKey r.packet)).Nodup ↔
      ∀ pos₁ ∈ offsets line header_index, ∀ pos₂ ∈ offsets line header_index, ∀ r₁ r₂,
        recoverFrom (findHeaders line).1 (alignedSoft line soft) pos₁ ts o = .ok (some r₁) →
        recoverFrom (findHeaders line).1 (alignedSoft line soft) pos₂ ts o = .ok (some r₂) →
        decodeKey r₁.packet = decodeKey r₂.packet → r₁.packet.data = r₂.packet.data := by
  obtain ⟨hfrom, hall⟩ := recoverPackets_ok h
  constructor
  · intro hnodup pos₁ h₁ pos₂ h₂ r₁ r₂ hr₁ hr₂ hkey
    obtain ⟨s₁, hs₁, hdata₁⟩ := hall pos₁ h₁ r₁ hr₁
    obtain ⟨s₂, hs₂, hdata₂⟩ := hall pos₂ h₂ r₂ hr₂
    have hsame : decodeKey s₁.packet = decodeKey s₂.packet := by
      rw [decodeKey_congr hdata₁, decodeKey_congr hdata₂, hkey]
    rw [← hdata₁, ← hdata₂, List.inj_on_of_nodup_map hnodup hs₁ hs₂ hsame]
  · intro hcond
    have hdata := recoverPackets_distinct h
    rw [List.Nodup, List.pairwise_map] at hdata ⊢
    refine hdata.imp_of_mem ?_
    intro r₁ r₂ h₁ h₂ hne hkey
    obtain ⟨pos₁, hpos₁, hr₁⟩ := hfrom r₁ h₁
    obtain ⟨pos₂, hpos₂, hr₂⟩ := hfrom r₂ h₂
    exact hne (hcond pos₁ hpos₁ pos₂ hpos₂ r₁ r₂ hr₁ hr₂ hkey)

/-- With repair on, the list has a packet twice exactly when two headers lead recovery to
packets that agree up to the CRC and differ after it. -/
theorem nodup_decode_iff (bits : Bits) (ts : Option Time) (show_all : Bool)
    (soft : Option (List ℚ)) (header_index : Option ℤ) (tracker : Option CommandTracker)
    (clock : ℕ → Time) {out : List Packet} {t : Option CommandTracker}
    (h : decode bits ts true show_all soft header_index tracker clock = .ok (out, t)) :
    (out.map decodeKey).Nodup ↔
      ∀ pos₁ ∈ offsets bits header_index, ∀ pos₂ ∈ offsets bits header_index, ∀ r₁ r₂,
        recoverFrom (findHeaders bits).1 (alignedSoft bits soft) pos₁ ts {} = .ok (some r₁) →
        recoverFrom (findHeaders bits).1 (alignedSoft bits soft) pos₂ ts {} = .ok (some r₂) →
        decodeKey r₁.packet = decodeKey r₂.packet → r₁.packet.data = r₂.packet.data := by
  rw [decode] at h
  cases hrecovered : recoverPackets bits soft ts header_index {} with
  | error e => simp [hrecovered, bind, Except.bind] at h
  | ok recovered =>
      rw [← recovered_distinct_iff hrecovered]
      have hkeys : out.map decodeKey =
          (merged recovered (keep (parseBits bits ts 4) show_all) show_all).map decodeKey := by
        cases tracker with
        | none =>
            simp only [hrecovered, Bool.not_true, Bool.false_eq_true, if_false, bind, Except.bind,
              pure, Except.pure, Except.ok.injEq, Prod.mk.injEq] at h
            rw [← h.1]
        | some u =>
            simp only [hrecovered, Bool.not_true, Bool.false_eq_true, if_false, bind, Except.bind,
              pure, Except.pure, Except.ok.injEq, Prod.mk.injEq] at h
            rw [← h.1, keys_run, List.map_map]
            conv_rhs => rw [← List.zipIdx_map_fst 0 (merged _ _ _), List.map_map]
            rfl
      have hmap : recovered.map (fun r => decodeKey r.packet) =
          (recovered.map Recovered.packet).map decodeKey := by
        rw [List.map_map]
        rfl
      rw [hkeys, merged, hmap, nodup_foldl_mergeKept]

def bytesBehind (extended : Bool) (all : List Reading) : List Byte :=
  (bytesFrom (all.map Reading.value) (all.length / frameLogicalBits)).drop (crcPlace extended + 1)

/-- As first read, two headers lead to messages too far apart for two repairs of each to meet,
or to the same bytes behind the CRC. -/
def SightedApart (sym : List ℚ) (pos₁ pos₂ : ℤ) : Prop :=
  ¬ FlipsExt sym pos₁ {} ∧ ¬ FlipsExt sym pos₂ {} ∧
    ∀ extended v w, readPacket sym pos₁ = .ok (some (extended, v)) →
      readPacket sym pos₂ = .ok (some (extended, w)) →
      4 < bitsApart v w (crcPlace extended + 1) ∨ bytesBehind extended v = bytesBehind extended w

theorem Recover.Repaired.data_drop {sym : List ℚ} {pos : ℤ} {o : RecoverOptions} {p : Packet}
    {extended : Bool} {all : List Reading} {flipped : List ℕ}
    (h : Repaired sym pos o p extended all flipped) :
    p.data.drop (crcPlace extended + 1) = bytesBehind extended all := by
  have hcount : all.length / frameLogicalBits = p.data.length := by
    rw [h.count]
    exact Nat.mul_div_cancel _ (by decide)
  rw [h.data, bytesFrom_drop, flipAt_drop h.nodup _ h.reach, ← bytesFrom_drop, ← hcount]
  rfl

/-- Equal keys of packets from two headers are one sighting, or two with the same pad. -/
theorem data_eq_of_decodeKey_eq {bits : Bits} {sym : List ℚ} {pos₁ pos₂ : ℤ} {ts : Option Time}
    {r₁ r₂ : Recovered} (h₁ : recoverFrom bits sym pos₁ ts {} = .ok (some r₁))
    (h₂ : recoverFrom bits sym pos₂ ts {} = .ok (some r₂)) (h : SightedApart sym pos₁ pos₂)
    (hkey : decodeKey r₁.packet = decodeKey r₂.packet) : r₁.packet.data = r₂.packet.data := by
  obtain ⟨hkeep₁, hkeep₂, hapart⟩ := h
  obtain ⟨extended, v, c, hv⟩ := repaired_of_recoverFrom h₁ hkeep₁
  obtain ⟨extended', w, d, hw⟩ := repaired_of_recoverFrom h₂ hkeep₂
  have hfirst : ∀ p : Packet, firstByte (decodeKey p) = firstByte p.data := by
    intro p
    rw [decodeKey]
    cases p.data <;> rfl
  have hkind : r₁.packet.extended = r₂.packet.extended := by
    rw [Packet.extended, Packet.extended, Packet.flagsByte, Packet.flagsByte, ← hfirst, ← hfirst,
      hkey]
  obtain rfl : extended = extended' := by rw [← hv.kind, ← hw.kind, hkind]
  have hplace : ∀ p : Packet, p.extended = extended → p.crcIndex = crcPlace extended := by
    rintro p rfl
    rfl
  rw [decodeKey, decodeKey, hplace _ hv.kind, hplace _ hw.kind] at hkey
  rcases hapart extended v w hv.read hw.read with hfar | hbehind
  · -- four flips cannot bring the two readings together
    have hbytes : bytesFrom (flipAt (v.map Reading.value) c) (crcPlace extended + 1) =
        bytesFrom (flipAt (w.map Reading.value) d) (crcPlace extended + 1) := by
      have htake : ∀ {p : Packet} {all : List Reading} {flipped : List ℕ} {pos : ℤ},
          Repaired sym pos {} p extended all flipped →
          p.data.take (crcPlace extended + 1) =
            bytesFrom (flipAt (all.map Reading.value) flipped) (crcPlace extended + 1) := by
        intro p all flipped pos hp
        have hmin : min (crcPlace extended + 1) p.data.length = crcPlace extended + 1 :=
          Nat.min_eq_left hp.checked
        rw [hp.data, bytesFrom, ← List.map_take, List.take_range, hmin]
        rfl
      rw [← htake hv, ← htake hw, hkey]
    have hroom : ∀ {p : Packet} {all : List Reading} {flipped : List ℕ} {pos : ℤ},
        Repaired sym pos {} p extended all flipped →
        (crcPlace extended + 1) * frameLogicalBits ≤ all.length := by
      intro p all flipped pos hp
      rw [hp.count]
      exact Nat.mul_le_mul_right _ hp.checked
    have hle := bitsApart_le hv.nodup hw.nodup (hroom hv) (hroom hw) hbytes
    have hc : c.length ≤ 2 := hv.few
    have hd : d.length ≤ 2 := hw.few
    omega
  · rw [← List.take_append_drop (crcPlace extended + 1) r₁.packet.data, hkey, hv.data_drop,
      hbehind, ← hw.data_drop, List.take_append_drop]

/-- With repair on, no packet is listed twice where any two headers of the burst lead to
messages that repairs keep apart, or to the same bytes behind the CRC. -/
theorem decode_distinct (bits : Bits) (ts : Option Time) (show_all : Bool)
    (soft : Option (List ℚ)) (header_index : Option ℤ) (tracker : Option CommandTracker)
    (clock : ℕ → Time) {out : List Packet} {t : Option CommandTracker}
    (hapart : ∀ pos₁ ∈ offsets bits header_index, ∀ pos₂ ∈ offsets bits header_index,
      pos₁ ≠ pos₂ → SightedApart (alignedSoft bits soft) pos₁ pos₂)
    (h : decode bits ts true show_all soft header_index tracker clock = .ok (out, t)) :
    (out.map decodeKey).Nodup := by
  rw [nodup_decode_iff bits ts show_all soft header_index tracker clock h]
  intro pos₁ hpos₁ pos₂ hpos₂ r₁ r₂ h₁ h₂ hkey
  by_cases hsame : pos₁ = pos₂
  · subst hsame
    rw [h₁, Except.ok.injEq, Option.some.injEq] at h₂
    rw [h₂]
  · exact data_eq_of_decodeKey_eq h₁ h₂ (hapart pos₁ hpos₁ pos₂ hpos₂ hsame) hkey

theorem decode_none (bits : Bits) (ts : Option Time) (show_all : Bool) (soft : Option (List ℚ))
    (clock : ℕ → Time) :
    decode bits ts true show_all soft none none clock =
      .ok (merged (firstOfEach (fun r => r.packet.data) [] ((findHeaders bits).2.filterMap
        (fun pos => recoverAtOffset (findHeaders bits).1 (alignedSoft bits soft) pos ts {})))
        (keep (parseBits bits ts 4) show_all) show_all, none) := by
  rw [decode, recoverPackets_none]
  rfl

/-- A message, and a second sighting of it that the end of the block cuts short. -/
def cutShortLine : Bits := cleanLine ++ cleanLine.take 324

/-- Recovery answers both, one with two bytes of pad less. -/
theorem decode_cutShort :
    ∃ out, decode cutShortLine none true false none none none (fun _ => 0) = .ok (out, none) ∧
      out.map (fun p => p.data) = [cleanPacket.data, cleanPacket.data.take 11] ∧
      ¬ (out.map decodeKey).Nodup := by
  refine ⟨_, decode_none _ _ _ _ _, ?_⟩
  decide +kernel

theorem twiceLine_headers : findHeaders twiceLine = (twiceLine, [0, 369]) := by
  decide +kernel

theorem not_flipsExt_of_crcOk {sym : List ℚ} {pos : ℕ} {o : RecoverOptions}
    (h : (readPacketAt sym pos).map (fun f => crcOk (bytesFrom (f.2.map Reading.value)
      (f.2.length / frameLogicalBits)) f.1) = some true) : ¬ FlipsExt sym pos o := by
  obtain ⟨⟨extended, all⟩, hread, hcrc⟩ := Option.map_eq_some_iff.mp h
  rintro ⟨e, l, combo, hsame, -, hfails, -⟩
  rw [readPacket_natCast, hread, Except.ok.injEq, Option.some.injEq, Prod.mk.injEq] at hsame
  obtain ⟨rfl, rfl⟩ := hsame
  rw [hcrc] at hfails
  cases hfails

theorem twiceLine_apart : ∀ pos₁ ∈ offsets twiceLine none, ∀ pos₂ ∈ offsets twiceLine none,
    pos₁ ≠ pos₂ → SightedApart (alignedSoft twiceLine none) pos₁ pos₂ := by
  have haligned : alignedSoft twiceLine none = softFor twiceLine none := by
    rw [alignedSoft, twiceLine_headers]
    simp
  have hoffsets : offsets twiceLine none = [((0 : ℕ) : ℤ), ((369 : ℕ) : ℤ)] := by
    rw [offsets, twiceLine_headers]
    rfl
  have hpad : ∀ pos ∈ [0, 369], (readPacketAt (softFor twiceLine none) pos).map
      (fun f => (f.1, bytesBehind f.1 f.2)) = some (false, [0x00#8, 0x00#8, 0xAA#8]) := by
    decide +kernel
  have hkeep : ∀ pos ∈ [0, 369], ¬ FlipsExt (softFor twiceLine none) ((pos : ℕ) : ℤ) {} := by
    simp only [List.forall_mem_cons, List.not_mem_nil, false_imp_iff, implies_true, and_true]
    constructor
    · exact (strict_of_search [96] (by decide +kernel) (by decide)).2
    · exact not_flipsExt_of_crcOk (by decide +kernel)
  have hboth : ∀ a ∈ [0, 369], ∀ b ∈ [0, 369],
      SightedApart (softFor twiceLine none) ((a : ℕ) : ℤ) ((b : ℕ) : ℤ) := by
    intro a ha b hb
    refine ⟨hkeep a ha, hkeep b hb, ?_⟩
    intro extended v w hv hw
    rw [readPacket_natCast] at hv hw
    have hpadv := hpad a ha
    have hpadw := hpad b hb
    rw [Except.ok.inj hv, Option.map_some, Option.some.injEq, Prod.mk.injEq] at hpadv
    rw [Except.ok.inj hw, Option.map_some, Option.some.injEq, Prod.mk.injEq] at hpadw
    exact Or.inr (hpadv.2.trans hpadw.2.symm)
  intro pos₁ h₁ pos₂ h₂ _
  rw [hoffsets] at h₁ h₂
  rw [haligned]
  simp only [List.mem_cons, List.not_mem_nil, or_false] at h₁ h₂
  obtain rfl | rfl := h₁ <;> obtain rfl | rfl := h₂ <;> exact hboth _ (by simp) _ (by simp)

theorem decode_distinct_twice :
    ∃ out, decode twiceLine none true false none none none (fun _ => 0) = .ok (out, none) ∧
      out.map (fun p => (p.data, p.corrected)) = [(cleanPacket.data, 1)] ∧
      (out.map decodeKey).Nodup := by
  refine ⟨_, decode_none _ _ _ _ _, by decide +kernel, ?_⟩
  exact decode_distinct twiceLine none false none none none (fun _ => 0) twiceLine_apart
    (decode_none _ _ _ _ _)

end InsteonRf
