import InsteonRf.Plm

/-!
# The PLM codec

The bytes a packet's CRC covers and the inbound frame that carries them determine
each other. What the frame leaves out, the packet CRC and the pad, is what the way
back computes again.
-/
namespace InsteonRf

theorem groupFlags_iff (flags : Byte) :
    (flags &&& flagBcast != 0 && flags &&& flagGroup != 0) =
      decide (flags &&& (flagBcast ||| flagGroup) = flagBcast ||| flagGroup) := by
  revert flags
  decide

/-- Six address bytes in the order of the other format: each address reversed, and
the two swapped except in a group broadcast. -/
def swapSlots (flags : Byte) : List Byte → List Byte
  | [a₁, a₂, a₃, b₁, b₂, b₃] =>
      if flags &&& flagBcast != 0 && flags &&& flagGroup != 0 then [a₃, a₂, a₁, b₃, b₂, b₁]
      else [b₃, b₂, b₁, a₃, a₂, a₁]
  | _ => []

theorem swapSlots_swapSlots (flags a₁ a₂ a₃ b₁ b₂ b₃ : Byte) :
    swapSlots flags (swapSlots flags [a₁, a₂, a₃, b₁, b₂, b₃]) = [a₁, a₂, a₃, b₁, b₂, b₃] := by
  by_cases h : (flags &&& flagBcast != 0 && flags &&& flagGroup != 0) = true
  · simp only [swapSlots, h, if_true]
  · simp only [swapSlots, h, Bool.false_eq_true, if_false]

/-- How many data bytes a frame carries behind the commands. -/
def plmDataLen (extended : Bool) : ℕ := if extended then extPlmDataLen else 0

/-- The inbound frame of the bytes a CRC covers. -/
def coveredFrame (flags : Byte) (slots : List Byte) (c₁ c₂ : Byte) (data : List Byte) :
    List Byte :=
  [plmStx, if isExtended flags then inpExtended else inpStandard] ++ swapSlots flags slots ++
    [flags, c₁, c₂] ++ data

theorem toPlmBytes_eq {p : Packet} (hlen : p.crcIndex < p.data.length)
    {f a₁ a₂ a₃ b₁ b₂ b₃ c₁ c₂ : Byte} {tail : List Byte}
    (hdata : p.data = f :: a₁ :: a₂ :: a₃ :: b₁ :: b₂ :: b₃ :: c₁ :: c₂ :: tail)
    (validate : Bool) :
    toPlmBytes p validate = (if validate then validatePlm p else .ok ()).map
      (fun _ => coveredFrame f [a₁, a₂, a₃, b₁, b₂, b₃] c₁ c₂
        (tail.take (plmDataLen (isExtended f)))) := by
  have hflags : p.flagsByte = f := by simp [Packet.flagsByte, firstByte, hdata]
  rw [Packet.crcIndex, Packet.extended, hflags, hdata] at hlen
  have hneed : ¬ (f :: a₁ :: a₂ :: a₃ :: b₁ :: b₂ :: b₃ :: c₁ :: c₂ :: tail).length <
      (if isExtended f then extCrcIndex else stdCrcIndex) + 1 := by omega
  have hslots : ∀ a b c : Byte, (Address.fromWire a b c).bytes = [c, b, a] :=
    fun a b c => Address.bytes_ofBytes c b a
  have hgroup : p.isGroupBroadcast = (f &&& flagBcast != 0 && f &&& flagGroup != 0) := by
    rw [Packet.isGroupBroadcast, Packet.bcast, Packet.groupMsg, hflags]
  have hdrop : (if isExtended f then
      ((f :: a₁ :: a₂ :: a₃ :: b₁ :: b₂ :: b₃ :: c₁ :: c₂ :: tail).take (extDataCrcIndex + 1)).drop 9
      else []) = tail.take (plmDataLen (isExtended f)) := by
    cases isExtended f <;> simp [plmDataLen, extDataCrcIndex, extPlmDataLen]
  have hframe : ∀ x y : List Byte, x.length = 3 → y.length = 3 →
      ([plmStx, if isExtended f then inpExtended else inpStandard] ++ x ++ y ++ [f, c₁, c₂] ++
        tail.take (plmDataLen (isExtended f))).length =
      (frameLens (if isExtended f then inpExtended else inpStandard)).getD 0 := by
    intro x y hx hy
    cases hext : isExtended f
    · simp [hx, hy, frameLens, plmDataLen, stdFrameLen, inpStandard]
    · simp [hext, extCrcIndex] at hlen
      simp [hx, hy, frameLens, plmDataLen, extFrameLen, extPlmDataLen, inpStandard, inpExtended]
      omega
  rw [toPlmBytes]
  simp only [Packet.extended, hflags, hdata, List.getD_cons_zero, List.getD_cons_succ, hslots,
    hgroup, hdrop]
  rw [if_neg hneed]
  by_cases hg : (f &&& flagBcast != 0 && f &&& flagGroup != 0) = true
  · simp only [hg, if_true, hframe [a₃, a₂, a₁] [b₃, b₂, b₁] rfl rfl, ne_eq, not_true_eq_false,
      if_false, coveredFrame, swapSlots]
    cases validate
    · rfl
    · cases validatePlm p <;> rfl
  · simp only [hg, Bool.false_eq_true, if_false, hframe [b₃, b₂, b₁] [a₃, a₂, a₁] rfl rfl, ne_eq,
      not_true_eq_false, coveredFrame, swapSlots]
    cases validate
    · rfl
    · cases validatePlm p <;> rfl

structure Inbound (raw : List Byte) (extended : Bool) : Prop where
  stx : raw[0]? = some plmStx
  code : raw[1]? = some (if extended then inpExtended else inpStandard)
  long : (if extended then extFrameLen else stdFrameLen) ≤ raw.length
  agrees : isExtended (raw.getD 8 0) = extended

def plmPacket (raw : List Byte) (extended : Bool) : Packet where
  data := plmWireData raw extended
  data_ne := plmWireData_ne raw extended

theorem frameLens_eq_some {code : Byte} {len : ℕ} (h : frameLens code = some len) :
    code = (if decide (code = inpExtended) then inpExtended else inpStandard) ∧
      len = if decide (code = inpExtended) then extFrameLen else stdFrameLen := by
  rw [frameLens] at h
  split_ifs at h with hstd hext
  · subst hstd
    exact ⟨rfl, (Option.some.inj h).symm⟩
  · subst hext
    exact ⟨rfl, (Option.some.inj h).symm⟩

theorem fromPlmBytes_cons (a b : Byte) (rest : List Byte) (q : Packet) :
    fromPlmBytes (a :: b :: rest) = .ok q ↔
      a = plmStx ∧ ∃ len, frameLens b = some len ∧ len ≤ (a :: b :: rest).length ∧
        isExtended ((a :: b :: rest).getD 8 0) = decide (b = inpExtended) ∧
        q = plmPacket (a :: b :: rest) (decide (b = inpExtended)) := by
  by_cases hstx : a = plmStx
  · cases hlens : frameLens b with
    | none => simp [fromPlmBytes, hstx, hlens, throw, throwThe, MonadExceptOf.throw]
    | some len =>
        by_cases hshort : (a :: b :: rest).length < len
        · apply iff_of_false
          · intro h
            simp only [List.length_cons] at hshort
            simp [fromPlmBytes, hstx, hlens, hshort, throw, throwThe, MonadExceptOf.throw] at h
            cases h
          · rintro ⟨-, m, hm, hle, -⟩
            obtain rfl := Option.some.inj hm
            omega
        · have hle : len ≤ rest.length + 1 + 1 := by simpa using hshort
          have hbyte : (a :: b :: rest).getD 8 0 = rest[6]?.getD 0#8 := by simp
          simp only [List.length_cons] at hshort
          rw [hbyte]
          by_cases hflags : isExtended (rest[6]?.getD 0#8) = decide (b = inpExtended)
          · simp [fromPlmBytes, hstx, hlens, hshort, hle, hflags, plmPacket, pure, Except.pure]
            exact eq_comm
          · apply iff_of_false
            · intro h
              simp [fromPlmBytes, hstx, hlens, hshort, hflags, throw, throwThe,
                MonadExceptOf.throw] at h
            · rintro ⟨-, m, -, -, hagree, -⟩
              exact hflags hagree
  · apply iff_of_false
    · intro h
      simp [fromPlmBytes, hstx, throw, throwThe, MonadExceptOf.throw] at h
      cases h
    · exact fun h => hstx h.1

theorem inbound_of_ok {raw : List Byte} {q : Packet} (h : fromPlmBytes raw = .ok q) :
    ∃ extended, Inbound raw extended ∧ q = plmPacket raw extended := by
  match raw with
  | [] => cases h
  | [a] => cases h
  | a :: b :: rest =>
      obtain ⟨rfl, len, hlens, hlong, hflags, rfl⟩ := (fromPlmBytes_cons a b rest q).mp h
      obtain ⟨hcode, rfl⟩ := frameLens_eq_some hlens
      exact ⟨_, ⟨rfl, congrArg some hcode, hlong, hflags⟩, rfl⟩

theorem fromPlmBytes_eq {raw : List Byte} {extended : Bool} (h : Inbound raw extended) :
    fromPlmBytes raw = .ok (plmPacket raw extended) := by
  obtain ⟨hstx, hcode, hlong, hflags⟩ := h
  match raw with
  | [] => simp at hstx
  | [a] => simp at hcode
  | a :: b :: rest =>
      obtain rfl : a = plmStx := by simpa using hstx
      obtain rfl : b = if extended then inpExtended else inpStandard := by simpa using hcode
      have hext : decide ((if extended then inpExtended else inpStandard) = inpExtended) =
          extended := by cases extended <;> decide
      have hlens : frameLens (if extended then inpExtended else inpStandard) =
          some (if extended then extFrameLen else stdFrameLen) := by cases extended <;> decide
      refine (fromPlmBytes_cons _ _ rest _).mpr ⟨rfl, _, hlens, hlong, ?_, ?_⟩
      · rw [hext]
        exact hflags
      · rw [hext]

/-- The bytes of an inbound frame that a CRC covers, in the order of the air. -/
theorem plmWireData_eq (s c x₁ x₂ x₃ y₁ y₂ y₃ f c₁ c₂ : Byte) (tail : List Byte)
    (extended : Bool) :
    ∃ d, d = f :: (swapSlots f [x₁, x₂, x₃, y₁, y₂, y₃] ++
        c₁ :: c₂ :: tail.take (plmDataLen extended)) ∧
      plmWireData (s :: c :: x₁ :: x₂ :: x₃ :: y₁ :: y₂ :: y₃ :: f :: c₁ :: c₂ :: tail) extended =
        d ++ pktCrc d :: pad (d.length + 1) extended := by
  refine ⟨_, rfl, ?_⟩
  have hwire : ∀ a b c : Byte, (Address.ofBytes a b c).wire = [c, b, a] := by
    intro a b c
    simp [Address.wire]
  have hdata : (if extended then tail.take extPlmDataLen else []) =
      tail.take (plmDataLen extended) := by cases extended <;> simp [plmDataLen]
  simp only [plmWireData, List.getD_cons_succ, List.getD_cons_zero, hwire, List.drop_succ_cons,
    List.drop_zero, hdata, swapSlots, groupFlags_iff, decide_eq_true_iff]
  split_ifs <;> simp

theorem pktCrc_append {d : List Byte} (hne : d ≠ [])
    (hlen : d.length = if isExtended (firstByte d) then extCrcIndex else stdCrcIndex)
    (rest : List Byte) : pktCrc (d ++ rest) = pktCrc d := by
  have hfirst : firstByte (d ++ rest) = firstByte d := by
    cases d with
    | nil => exact absurd rfl hne
    | cons a d => rfl
  rw [pktCrc, pktCrc, hfirst, List.take_left' hlen, List.take_of_length_le hlen.le]

theorem crcOk_append {p : Packet} {d rest : List Byte} (hne : d ≠ [])
    (hlen : d.length = if isExtended (firstByte d) then extCrcIndex else stdCrcIndex)
    (hdata : p.data = d ++ pktCrc d :: rest) : p.crcIndex = d.length ∧ p.crcOk = some true := by
  have hindex : p.crcIndex = d.length := by
    have hflags : p.flagsByte = firstByte d := by
      cases d with
      | nil => exact absurd rfl hne
      | cons a d => simp [Packet.flagsByte, firstByte, hdata]
    rw [Packet.crcIndex, Packet.extended, hflags, hlen]
  have hcrc : p.crc = some (pktCrc d) := by simp [Packet.crc, hindex, hdata]
  have hcalc : p.calcCrc = some (pktCrc d) := by
    have hle : p.crcIndex ≤ p.data.length := by simp [hindex, hdata]
    rw [Packet.calcCrc, if_pos hle, hdata, pktCrc_append hne hlen]
  exact ⟨hindex, by simp [Packet.crcOk, hcrc, hcalc]⟩

/-- Two packets alike but for hops-left, the CRC and what follows it. -/
structure HopCopy (p p' : Packet) : Prop where
  flags : p'.flagsByte &&& ~~~0x0C#8 = p.flagsByte &&& ~~~0x0C#8
  bytes : ∀ i, 0 < i → i < p.crcIndex → p'.data[i]? = p.data[i]?

theorem firstByte_eq (l : List Byte) : firstByte l = l.getD 0 0 := by
  cases l <;> rfl

theorem isExtended_of_masked {f g : Byte} (h : f &&& ~~~0x0C#8 = g &&& ~~~0x0C#8) :
    isExtended f = isExtended g := by
  have hkeep : ∀ b : Byte, isExtended b = isExtended (b &&& ~~~0x0C#8) := by decide
  rw [hkeep f, hkeep g, h]

theorem crcIndex_pos (p : Packet) : 0 < p.crcIndex := by
  rw [Packet.crcIndex]
  split_ifs <;> decide

theorem HopCopy.crcIndex {p p' : Packet} (h : HopCopy p p') : p'.crcIndex = p.crcIndex := by
  rw [Packet.crcIndex, Packet.crcIndex, Packet.extended, Packet.extended,
    isExtended_of_masked h.flags]

/-- A packet is known by the bytes before its CRC, as far as it has them. -/
theorem messageKey_eq (p : Packet) : messageKey p = maskHopsLeft (p.data.take p.crcIndex) := by
  rw [messageKey]
  split_ifs with hlt
  · rfl
  · rw [List.take_of_length_le (by omega)]

theorem messageKey_hopCopy {p p' : Packet} (h : HopCopy p p') :
    messageKey p' = messageKey p := by
  rw [messageKey_eq, messageKey_eq, h.crcIndex]
  have hflags := h.flags
  rw [Packet.flagsByte, Packet.flagsByte] at hflags
  have hbytes := h.bytes
  have hpos := crcIndex_pos p
  cases hd : p.data with
  | nil => exact absurd hd p.data_ne
  | cons f rest =>
      cases hd' : p'.data with
      | nil => exact absurd hd' p'.data_ne
      | cons f' rest' =>
          rw [hd, hd'] at hflags
          rw [hd, hd'] at hbytes
          obtain ⟨n, hn⟩ : ∃ n, p.crcIndex = n + 1 := ⟨p.crcIndex - 1, by omega⟩
          rw [hn, List.take_succ_cons, List.take_succ_cons]
          have hrest : rest'.take n = rest.take n := by
            apply List.ext_getElem?
            intro i
            rw [List.getElem?_take, List.getElem?_take]
            split_ifs with hi
            · simpa using hbytes (i + 1) (by omega) (by omega)
            · rfl
          rw [hrest, maskHopsLeft, maskHopsLeft]
          congr 1

theorem hopCopy_of_take {p q : Packet} (h : q.data.take p.crcIndex = p.data.take p.crcIndex) :
    HopCopy p q := by
  have hbytes : ∀ i, i < p.crcIndex → q.data[i]? = p.data[i]? := by
    intro i hi
    have hi' := congrArg (·[i]?) h
    simpa [List.getElem?_take, hi] using hi'
  constructor
  · rw [Packet.flagsByte, Packet.flagsByte, firstByte_eq, firstByte_eq, List.getD_eq_getElem?_getD,
      List.getD_eq_getElem?_getD, hbytes 0 (crcIndex_pos p)]
  · exact fun i _ hi => hbytes i hi

theorem swapSlots_six (f a₁ a₂ a₃ b₁ b₂ b₃ : Byte) :
    ∃ x₁ x₂ x₃ y₁ y₂ y₃, swapSlots f [a₁, a₂, a₃, b₁, b₂, b₃] = [x₁, x₂, x₃, y₁, y₂, y₃] := by
  rw [swapSlots]
  split_ifs
  · exact ⟨_, _, _, _, _, _, rfl⟩
  · exact ⟨_, _, _, _, _, _, rfl⟩

theorem crcIndex_eq {p : Packet} {f : Byte} (h : p.flagsByte = f) :
    p.crcIndex = 9 + plmDataLen (isExtended f) := by
  rw [Packet.crcIndex, Packet.extended, h]
  cases isExtended f <;> rfl

theorem length_of_toPlmBytes {p : Packet} {validate : Bool} {frame : List Byte}
    (h : toPlmBytes p validate = .ok frame) : p.crcIndex < p.data.length := by
  by_contra hshort
  have hneed : p.data.length < (if p.extended then extCrcIndex else stdCrcIndex) + 1 := by
    rw [Packet.crcIndex] at hshort
    omega
  simp [toPlmBytes, hneed, throw, throwThe, MonadExceptOf.throw, bind, Except.bind] at h

theorem coveredFrame_of_toPlmBytes {p : Packet} {validate : Bool} {frame : List Byte}
    (h : toPlmBytes p validate = .ok frame) :
    ∃ f a₁ a₂ a₃ b₁ b₂ b₃ c₁ c₂ tail,
      p.data = f :: a₁ :: a₂ :: a₃ :: b₁ :: b₂ :: b₃ :: c₁ :: c₂ :: tail ∧
      plmDataLen (isExtended f) ≤ tail.length ∧
      frame = coveredFrame f [a₁, a₂, a₃, b₁, b₂, b₃] c₁ c₂
        (tail.take (plmDataLen (isExtended f))) := by
  have hlen := length_of_toPlmBytes h
  have hnine : 9 ≤ p.data.length := by
    rw [Packet.crcIndex] at hlen
    split_ifs at hlen <;> simp only [extCrcIndex, stdCrcIndex] at hlen <;> omega
  obtain ⟨f, a₁, a₂, a₃, b₁, b₂, b₃, c₁, c₂, tail, hdata⟩ := exists_nine hnine
  refine ⟨f, a₁, a₂, a₃, b₁, b₂, b₃, c₁, c₂, tail, hdata, ?_, ?_⟩
  · have hflags : p.flagsByte = f := by simp [Packet.flagsByte, firstByte, hdata]
    rw [crcIndex_eq hflags, hdata] at hlen
    simp only [List.length_cons] at hlen
    omega
  · rw [toPlmBytes_eq hlen hdata] at h
    cases hcheck : (if validate then validatePlm p else Except.ok ()) with
    | error e => simp [hcheck, Except.map] at h
    | ok u => simpa [hcheck, Except.map, eq_comm] using h

theorem inbound_cons (x₁ x₂ x₃ y₁ y₂ y₃ f c₁ c₂ : Byte) {tail : List Byte}
    (htail : plmDataLen (isExtended f) ≤ tail.length) :
    Inbound (plmStx :: (if isExtended f then inpExtended else inpStandard) ::
      x₁ :: x₂ :: x₃ :: y₁ :: y₂ :: y₃ :: f :: c₁ :: c₂ :: tail) (isExtended f) := by
  refine ⟨rfl, rfl, ?_, rfl⟩
  cases hext : isExtended f with
  | false => simp [stdFrameLen]
  | true =>
      rw [hext] at htail
      simp [extFrameLen, plmDataLen, extPlmDataLen] at htail ⊢
      omega

theorem Inbound.exists_cons {raw : List Byte} {extended : Bool} (h : Inbound raw extended) :
    ∃ x₁ x₂ x₃ y₁ y₂ y₃ f c₁ c₂ tail,
      raw = plmStx :: (if extended then inpExtended else inpStandard) ::
        x₁ :: x₂ :: x₃ :: y₁ :: y₂ :: y₃ :: f :: c₁ :: c₂ :: tail ∧
      isExtended f = extended ∧ plmDataLen extended ≤ tail.length := by
  obtain ⟨hstx, hcode, hlong, hagree⟩ := h
  have heleven : 11 + plmDataLen extended ≤ raw.length := by
    cases extended <;> simpa [plmDataLen, extPlmDataLen, extFrameLen, stdFrameLen] using hlong
  obtain ⟨s, c, x₁, x₂, x₃, y₁, y₂, y₃, f, rest, rfl⟩ := exists_nine (l := raw) (by omega)
  simp only [List.length_cons] at heleven
  obtain ⟨c₁, rest, rfl⟩ := List.exists_cons_of_length_pos (l := rest) (by omega)
  simp only [List.length_cons] at heleven
  obtain ⟨c₂, tail, rfl⟩ := List.exists_cons_of_length_pos (l := rest) (by omega)
  simp only [List.length_cons] at heleven
  obtain rfl : s = plmStx := by simpa using hstx
  obtain rfl : c = if extended then inpExtended else inpStandard := by simpa using hcode
  exact ⟨x₁, x₂, x₃, y₁, y₂, y₃, f, c₁, c₂, tail, rfl, by simpa using hagree, by omega⟩

/-- A frame made from a packet is read back as the packet's covered bytes. -/
theorem fromPlmBytes_toPlmBytes {p : Packet} {validate : Bool} {frame : List Byte}
    (h : toPlmBytes p validate = .ok frame) :
    ∃ q, fromPlmBytes frame = .ok q ∧ q.data.take p.crcIndex = p.data.take p.crcIndex ∧
      q.crcOk = some true := by
  obtain ⟨f, a₁, a₂, a₃, b₁, b₂, b₃, c₁, c₂, tail, hdata, htail, hframe⟩ :=
    coveredFrame_of_toPlmBytes h
  have hflags : p.flagsByte = f := by simp [Packet.flagsByte, firstByte, hdata]
  have hindex := crcIndex_eq hflags
  obtain ⟨x₁, x₂, x₃, y₁, y₂, y₃, hslots⟩ := swapSlots_six f a₁ a₂ a₃ b₁ b₂ b₃
  have hback : swapSlots f [x₁, x₂, x₃, y₁, y₂, y₃] = [a₁, a₂, a₃, b₁, b₂, b₃] := by
    rw [← hslots, swapSlots_swapSlots]
  have hcons : frame = plmStx :: (if isExtended f then inpExtended else inpStandard) ::
      x₁ :: x₂ :: x₃ :: y₁ :: y₂ :: y₃ :: f :: c₁ :: c₂ ::
        tail.take (plmDataLen (isExtended f)) := by
    rw [hframe, coveredFrame, hslots]
    rfl
  have hin : Inbound frame (isExtended f) := by
    rw [hcons]
    apply inbound_cons
    rw [List.length_take]
    omega
  obtain ⟨d, hd, hwire⟩ := plmWireData_eq plmStx (if isExtended f then inpExtended else inpStandard)
    x₁ x₂ x₃ y₁ y₂ y₃ f c₁ c₂ (tail.take (plmDataLen (isExtended f))) (isExtended f)
  rw [hback, List.take_take, min_self] at hd
  have hcovered : p.data.take p.crcIndex = d := by
    rw [hindex, hdata, hd, Nat.add_comm]
    rfl
  have hdlen : d.length = p.crcIndex := by
    have hlen := length_of_toPlmBytes h
    rw [← hcovered, List.length_take]
    omega
  have hq : (plmPacket frame (isExtended f)).data =
      d ++ pktCrc d :: pad (d.length + 1) (isExtended f) := by
    rw [plmPacket, hcons]
    exact hwire
  have hcount : d.length = if isExtended (firstByte d) then extCrcIndex else stdCrcIndex := by
    rw [hdlen, Packet.crcIndex, Packet.extended, hflags, hd]
    rfl
  have hne : d ≠ [] := by
    rw [hd]
    exact List.cons_ne_nil _ _
  refine ⟨plmPacket frame (isExtended f), fromPlmBytes_eq hin, ?_, (crcOk_append hne hcount hq).2⟩
  rw [hcovered, hq, List.take_left' hdlen]

/-- A packet read from a frame passes every check but that of its hop fields. -/
theorem validatePlm_of_crcOk {q : Packet} (hindex : q.index_ok = none) (hcrc : q.crcOk = some true) :
    (q.hopsLeft ≤ q.maxHops → validatePlm q = .ok ()) ∧
      (¬ q.hopsLeft ≤ q.maxHops → ∃ e, validatePlm q = .error e) := by
  constructor
  · intro hhops
    simp [validatePlm, hindex, hcrc, Packet.hopsOk, hhops]
  · intro hhops
    simp [validatePlm, hindex, Packet.hopsOk, hhops]

theorem toPlmBytes_plmPacket {raw : List Byte} {extended : Bool} (h : Inbound raw extended)
    (validate : Bool) :
    (plmPacket raw extended).crcOk = some true ∧
      toPlmBytes (plmPacket raw extended) validate =
        (if validate then validatePlm (plmPacket raw extended) else .ok ()).map
          (fun _ => raw.take (if extended then extFrameLen else stdFrameLen)) := by
  obtain ⟨x₁, x₂, x₃, y₁, y₂, y₃, f, c₁, c₂, tail, rfl, hf, htail⟩ := h.exists_cons
  obtain ⟨d, hd, hwire⟩ := plmWireData_eq plmStx
    (if extended then inpExtended else inpStandard) x₁ x₂ x₃ y₁ y₂ y₃ f c₁ c₂ tail extended
  obtain ⟨a₁, a₂, a₃, b₁, b₂, b₃, hslots⟩ := swapSlots_six f x₁ x₂ x₃ y₁ y₂ y₃
  have hback : swapSlots f [a₁, a₂, a₃, b₁, b₂, b₃] = [x₁, x₂, x₃, y₁, y₂, y₃] := by
    rw [← hslots, swapSlots_swapSlots]
  rw [hslots] at hd
  have hdlen : d.length = 9 + plmDataLen extended := by
    simp [hd, htail]
    omega
  have hcount : d.length = if isExtended (firstByte d) then extCrcIndex else stdCrcIndex := by
    rw [hdlen, hd]
    simp only [firstByte, List.headD_cons, hf]
    cases extended <;> rfl
  have hne : d ≠ [] := by
    rw [hd]
    exact List.cons_ne_nil _ _
  generalize hraw : plmStx :: (if extended then inpExtended else inpStandard) ::
      x₁ :: x₂ :: x₃ :: y₁ :: y₂ :: y₃ :: f :: c₁ :: c₂ :: tail = raw at hwire ⊢
  have hdata : (plmPacket raw extended).data =
      d ++ pktCrc d :: pad (d.length + 1) extended := hwire
  obtain ⟨hindex, hcrc⟩ := crcOk_append hne hcount hdata
  refine ⟨hcrc, ?_⟩
  have hlt : (plmPacket raw extended).crcIndex < (plmPacket raw extended).data.length := by
    rw [hindex, hdata, List.length_append, List.length_cons]
    omega
  have hnine : (plmPacket raw extended).data = f :: a₁ :: a₂ :: a₃ :: b₁ :: b₂ :: b₃ :: c₁ ::
      c₂ :: (tail.take (plmDataLen extended) ++ pktCrc d :: pad (d.length + 1) extended) := by
    rw [hdata]
    nth_rewrite 1 [hd]
    rfl
  rw [toPlmBytes_eq hlt hnine validate, coveredFrame, hback, hf]
  congr 1
  funext u
  have htake : (tail.take (plmDataLen extended)).length = plmDataLen extended := by
    simpa using htail
  rw [← hraw]
  cases extended with
  | false => simp [plmDataLen, stdFrameLen]
  | true =>
      rw [List.take_left' htake]
      rfl

/-- Frames are accepted by their first two bytes, their length and the EXT bit. -/
theorem fromPlmBytes_ok_iff (raw : List Byte) :
    (∃ q, fromPlmBytes raw = .ok q) ↔ ∃ extended, Inbound raw extended := by
  constructor
  · rintro ⟨q, hq⟩
    obtain ⟨extended, hin, -⟩ := inbound_of_ok hq
    exact ⟨extended, hin⟩
  · rintro ⟨extended, hin⟩
    exact ⟨plmPacket raw extended, fromPlmBytes_eq hin⟩

/-- A frame made from a packet is read back with the covered bytes and the key of every hop
copy. -/
theorem readBack_of_toPlmBytes {p : Packet} {validate : Bool} {frame : List Byte}
    (h : toPlmBytes p validate = .ok frame) :
    ∃ q, fromPlmBytes frame = .ok q ∧
      (∀ i, i < p.crcIndex → q.data[i]? = p.data[i]? ∧ q.data[i]? ≠ none) ∧
      q.crcOk = some true ∧ ∀ p', HopCopy p p' → messageKey q = messageKey p' := by
  have hlen := length_of_toPlmBytes h
  obtain ⟨q, hq, htake, hcrc⟩ := fromPlmBytes_toPlmBytes h
  have hcopy := hopCopy_of_take htake
  refine ⟨q, hq, ?_, hcrc, ?_⟩
  · intro i hi
    have hbyte : q.data[i]? = p.data[i]? := by
      have htake' := congrArg (·[i]?) htake
      simpa [List.getElem?_take, hi] using htake'
    rw [hbyte]
    have hin : i < p.data.length := by omega
    exact ⟨rfl, by simp [hin]⟩
  · intro p' hp'
    rw [messageKey_hopCopy hp', messageKey_hopCopy hcopy]

/-- An accepted frame, read and made again, is its own first bytes, refused only for its hop
fields. -/
theorem remade_of_fromPlmBytes {raw : List Byte} {q : Packet} (hq : fromPlmBytes raw = .ok q) :
    toPlmBytes q false = .ok (raw.take (if raw[1]? = some 0x51#8 then 25 else 11)) ∧
      (q.hopsLeft ≤ q.maxHops →
        toPlmBytes q true = .ok (raw.take (if raw[1]? = some 0x51#8 then 25 else 11))) ∧
      (¬ q.hopsLeft ≤ q.maxHops → ∃ e, toPlmBytes q true = .error e) := by
  obtain ⟨extended, hin, rfl⟩ := inbound_of_ok hq
  have hlen : (if raw[1]? = some 0x51#8 then 25 else 11) =
      if extended then extFrameLen else stdFrameLen := by
    rw [hin.code]
    cases extended <;> rfl
  have hcrc := (toPlmBytes_plmPacket hin true).1
  obtain ⟨hpass, hfail⟩ := validatePlm_of_crcOk (q := plmPacket raw extended) rfl hcrc
  rw [hlen]
  refine ⟨(toPlmBytes_plmPacket hin false).2, ?_, ?_⟩
  · intro hhops
    rw [(toPlmBytes_plmPacket hin true).2, if_pos rfl, hpass hhops]
    rfl
  · intro hhops
    obtain ⟨e, he⟩ := hfail hhops
    refine ⟨e, ?_⟩
    rw [(toPlmBytes_plmPacket hin true).2, if_pos rfl, he]
    rfl

/-- The PLM codec. A frame made from a packet is read back as a packet with the same
covered bytes, a matching CRC and the key of every hop copy; and an accepted frame,
read and made again, is its own first bytes, refused only for its hop fields. -/
theorem plm_codec :
    (∀ (p : Packet) (validate : Bool) (frame : List Byte), toPlmBytes p validate = .ok frame →
      ∃ q, fromPlmBytes frame = .ok q ∧
        (∀ i, i < (if p.extended then 23 else 9) → q.data[i]? = p.data[i]? ∧ q.data[i]? ≠ none) ∧
        q.crcOk = some true ∧ ∀ p', HopCopy p p' → messageKey q = messageKey p') ∧
    (∀ raw : List Byte, (∃ q, fromPlmBytes raw = .ok q) ↔
      raw[0]? = some 0x02#8 ∧
        ((raw[1]? = some 0x50#8 ∧ 11 ≤ raw.length ∧ isExtended (raw.getD 8 0) = false) ∨
          (raw[1]? = some 0x51#8 ∧ 25 ≤ raw.length ∧ isExtended (raw.getD 8 0) = true))) ∧
    (∀ (raw : List Byte) (q : Packet), fromPlmBytes raw = .ok q →
      toPlmBytes q false = .ok (raw.take (if raw[1]? = some 0x51#8 then 25 else 11)) ∧
        (q.hopsLeft ≤ q.maxHops →
          toPlmBytes q true = .ok (raw.take (if raw[1]? = some 0x51#8 then 25 else 11))) ∧
        (¬ q.hopsLeft ≤ q.maxHops → ∃ e, toPlmBytes q true = .error e)) := by
  refine ⟨fun p validate frame h => readBack_of_toPlmBytes h, ?_,
    fun raw q => remade_of_fromPlmBytes⟩
  intro raw
  rw [fromPlmBytes_ok_iff]
  constructor
  · rintro ⟨extended, hstx, hcode, hlong, hagree⟩
    refine ⟨hstx, ?_⟩
    cases extended
    · exact Or.inl ⟨hcode, hlong, hagree⟩
    · exact Or.inr ⟨hcode, hlong, hagree⟩
  · rintro ⟨hstx, ⟨hcode, hlong, hagree⟩ | ⟨hcode, hlong, hagree⟩⟩
    · exact ⟨false, hstx, hcode, hlong, hagree⟩
    · exact ⟨true, hstx, hcode, hlong, hagree⟩

/-- A standard message with two hops left of three, and its copy one hop on. -/
def onMessage : Packet :=
  Packet.ofBytes 0x0B#8 [0x07#8, 0x93#8, 0x2B#8, 0x1D#8, 0x50#8, 0x33#8, 0x11#8, 0xFF#8, 0x94#8]

def onMessageRelayed : Packet :=
  Packet.ofBytes 0x07#8 [0x07#8, 0x93#8, 0x2B#8, 0x1D#8, 0x50#8, 0x33#8, 0x11#8, 0xFF#8]

def onMessageFrame : List Byte :=
  [0x02#8, 0x50#8, 0x33#8, 0x50#8, 0x1D#8, 0x2B#8, 0x93#8, 0x07#8, 0x0B#8, 0x11#8, 0xFF#8]

theorem plm_codec_onMessage :
    (∃ q, fromPlmBytes onMessageFrame = .ok q ∧
      (∀ i, i < 9 → q.data[i]? = onMessage.data[i]? ∧ q.data[i]? ≠ none) ∧
      q.crcOk = some true ∧ messageKey q = messageKey onMessageRelayed) ∧
    (∃ q, fromPlmBytes onMessageFrame = .ok q ∧ toPlmBytes q true = .ok onMessageFrame) := by
  obtain ⟨hthere, haccept, hback⟩ := plm_codec
  constructor
  · obtain ⟨q, hq, hbytes, hcrc, hkey⟩ := hthere onMessage true onMessageFrame (by decide)
    refine ⟨q, hq, hbytes, hcrc, hkey onMessageRelayed ⟨by decide, ?_⟩⟩
    intro i hpos hi
    have hnine : i < 9 := hi
    interval_cases i <;> rfl
  · obtain ⟨q, hq⟩ := (haccept onMessageFrame).mpr ⟨rfl, Or.inl ⟨rfl, le_rfl, by decide⟩⟩
    refine ⟨q, hq, (hback onMessageFrame q hq).2.1 ?_⟩
    have hdata : q.data = plmWireData onMessageFrame false := by
      have h : fromPlmBytes onMessageFrame = .ok (plmPacket onMessageFrame false) :=
        fromPlmBytes_eq ⟨rfl, rfl, le_rfl, by decide⟩
      rw [h] at hq
      exact congrArg Packet.data (Except.ok.inj hq).symm
    simp only [Packet.hopsLeft, Packet.maxHops, Packet.flagsByte, hdata]
    decide

end InsteonRf
