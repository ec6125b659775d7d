import InsteonRf.AddressParse
import InsteonRf.Inject
import InsteonRf.PlmCodec

/-!
# Packets from their fields

A packet is laid out by its arguments: with a group its sender goes first, else its destination
does. Whoever reads it goes by the broadcast and group flags, of which the group sets one.
-/
namespace InsteonRf

def extDataLen : ℕ := 13

namespace Packet

def cmd2 (p : Packet) : Option Byte := p.data[8]?

def extData (p : Packet) : Option (List Byte) :=
  if p.extended && decide (22 ≤ p.data.length) then some ((p.data.take 22).drop 9) else none

/-- Long enough, and its CRCs match. -/
def valid (p : Packet) : Bool := decide (p.crcOk = some true) && decide (p.extCrcOk ≠ some false)

end Packet

/-- The arguments of `Packet.build`; the extended data are bytes. -/
structure BuildArgs where
  src : AddressArg
  dst : Option AddressArg := none
  group : Option ℤ := none
  cmd1 : ℤ := 0
  cmd2 : ℤ := 0
  ext_data : List Byte := []
  extended : Option Bool := none
  bcast : Bool := false
  ack : Bool := false
  max_hops : ℤ := 3
  hops_left : ℤ := 3
  crc : Option ℤ := none
  pad : Bool := true

inductive BuildError where
  /-- `ValueError("exactly one of dst or group is required")` -/
  | dstOrGroup
  /-- `ValueError(f"extended data is at most {EXT_DATA_LEN} bytes")` -/
  | extTooLong
  | address (e : AddressError)
  deriving DecidableEq

def lowByte (n : ℤ) : Byte := BitVec.ofInt 8 n

def flagsOf (max_hops hops_left : Byte) (extended ack group bcast : Bool) : Byte :=
  let flags := (max_hops &&& 3#8) ||| (hops_left &&& 3#8) <<< 2
  let flags := if extended then flags ||| flagExt else flags
  let flags := if ack then flags ||| flagAck else flags
  let flags := if group then flags ||| flagGroup else flags
  if bcast then flags ||| flagBcast else flags

namespace BuildArgs

def isExtended (a : BuildArgs) : Bool := a.extended.getD (!a.ext_data.isEmpty)

def flags (a : BuildArgs) : Byte :=
  flagsOf (lowByte a.max_hops) (lowByte a.hops_left) a.isExtended a.ack a.group.isSome a.bcast

def covered (a : BuildArgs) (slots : List Byte) : List Byte :=
  let data := a.flags :: (slots ++ [lowByte a.cmd1, lowByte a.cmd2])
  if a.isExtended then
    let data := data ++ (a.ext_data ++ List.replicate (extDataLen - a.ext_data.length) 0)
    data ++ [extCrc data]
  else data

def data (a : BuildArgs) (slots : List Byte) : List Byte :=
  let data := a.covered slots
  let data := data ++ [match a.crc with
    | none => pktCrc data
    | some crc => lowByte crc]
  if a.pad then data ++ InsteonRf.pad data.length a.isExtended else data

theorem data_ne (a : BuildArgs) (slots : List Byte) : a.data slots ≠ [] := by
  rw [data]
  split_ifs <;> simp

theorem isExtended_iff (a : BuildArgs) :
    a.isExtended = true ↔ a.extended = some true ∨ a.extended = none ∧ a.ext_data ≠ [] := by
  rw [isExtended]
  cases a.extended with
  | none => simp
  | some b => simp

variable (decimal : Char → Option ℕ)

def address (x : AddressArg) : Except BuildError (List Byte) :=
  match AddressObject.init decimal x with
  | .ok a => .ok (a.wire.map lowByte)
  | .error e => .error (.address e)

def slots (a : BuildArgs) : Except BuildError (List Byte) :=
  match a.dst, a.group with
  | none, some group => do
      let src ← address decimal a.src
      return src ++ [lowByte group, 0, 0]
  | some dst, none => do
      let dst ← address decimal dst
      let src ← address decimal a.src
      return dst ++ src
  | _, _ => .error .dstOrGroup

end BuildArgs

def Packet.build (decimal : Char → Option ℕ) (a : BuildArgs) : Except BuildError Packet :=
  if a.dst.isNone = a.group.isNone then .error .dstOrGroup
  else if extDataLen < a.ext_data.length then .error .extTooLong
  else do
    let slots ← a.slots decimal
    return { data := a.data slots, data_ne := a.data_ne slots }

structure BuildArgs.Proper (a : BuildArgs) : Prop where
  cmd1 : 0 ≤ a.cmd1 ∧ a.cmd1 < 256
  cmd2 : 0 ≤ a.cmd2 ∧ a.cmd2 < 256
  group : ∀ g, a.group = some g → 0 ≤ g ∧ g < 256
  max_hops : 0 ≤ a.max_hops ∧ a.max_hops < 4
  hops_left : 0 ≤ a.hops_left ∧ a.hops_left < 4
  crc : a.crc = none
  pad : a.pad = true

def toInt (b : Byte) : ℤ := b.toNat

/-- The accessors return what the packet was built from. -/
structure ReadsBack (decimal : Char → Option ℕ) (a : BuildArgs) (p : Packet) : Prop where
  valid : p.valid = true
  extCrc : p.extended = true → p.extCrcOk = some true
  length : p.data.length = if p.extended then 32 else 13
  cmd1 : p.cmd1.map toInt = some a.cmd1
  cmd2 : p.cmd2.map toInt = some a.cmd2
  hopsLeft : (p.hopsLeft : ℤ) = a.hops_left
  maxHops : (p.maxHops : ℤ) = a.max_hops
  ack : p.ack = a.ack
  bcast : p.bcast = a.bcast
  extData : p.extData = if a.ext_data = [] ∧ a.extended ≠ some true then none
    else some (a.ext_data ++ List.replicate (extDataLen - a.ext_data.length) 0)
  sender : ∀ src, AddressObject.init decimal a.src = .ok src →
    (senderOf p).map Address.object = some src
  dst : ∀ x dst, a.dst = some x → AddressObject.init decimal x = .ok dst →
    p.toAddr.map Address.object = some dst
  group : ∀ g, a.group = some g → p.group.map toInt = some g

theorem flagsOf_reads : ∀ (m h : Fin 4) (extended ack group bcast : Bool),
    let f := flagsOf (BitVec.ofNat 8 m) (BitVec.ofNat 8 h) extended ack group bcast
    isExtended f = extended ∧ (f &&& flagAck != 0) = ack ∧ (f &&& flagGroup != 0) = group ∧
      (f &&& flagBcast != 0) = bcast ∧ (f &&& 3#8).toNat = m ∧ ((f >>> 2) &&& 3#8).toNat = h := by
  decide

theorem flags_reads {a : BuildArgs} (h : a.Proper) :
    isExtended a.flags = a.isExtended ∧ (a.flags &&& flagAck != 0) = a.ack ∧
      (a.flags &&& flagGroup != 0) = a.group.isSome ∧ (a.flags &&& flagBcast != 0) = a.bcast ∧
      ((a.flags &&& 3#8).toNat : ℤ) = a.max_hops ∧
      (((a.flags >>> 2) &&& 3#8).toNat : ℤ) = a.hops_left := by
  have hlow : ∀ n : ℤ, 0 ≤ n ∧ n < 4 → ∃ m : Fin 4, n = m ∧ lowByte n = BitVec.ofNat 8 m := by
    rintro n ⟨hpos, hlt⟩
    obtain ⟨m, rfl⟩ := Int.eq_ofNat_of_zero_le hpos
    exact ⟨⟨m, by omega⟩, rfl, BitVec.ofInt_natCast 8 m⟩
  obtain ⟨m, hm, hmax⟩ := hlow _ h.max_hops
  obtain ⟨n, hn, hleft⟩ := hlow _ h.hops_left
  obtain ⟨hext, hack, hgroup, hbcast, hmaxes, hlefts⟩ :=
    flagsOf_reads m n a.isExtended a.ack a.group.isSome a.bcast
  rw [BuildArgs.flags, hmax, hleft]
  exact ⟨hext, hack, hgroup, hbcast, by rw [hmaxes, hm], by rw [hlefts, hn]⟩

theorem exists_wire (o : AddressObject) :
    ∃ b₁ b₂ b₃ : Byte, o.wire.map lowByte = [b₁, b₂, b₃] ∧
      ((Address.fromWire b₁ b₂ b₃).object = o ↔ o.InRange) := by
  obtain ⟨x, y, z, hbytes, hx, hy, hz, hvalue⟩ := o.exists_bytes
  have hlow : ∀ n : ℕ, lowByte n = BitVec.ofNat 8 n := fun n => BitVec.ofInt_natCast 8 n
  refine ⟨BitVec.ofNat 8 z, BitVec.ofNat 8 y, BitVec.ofNat 8 x, ?_, ?_⟩
  · rw [AddressObject.wire, hbytes]
    simp [hlow]
  · have hread : (Address.fromWire (BitVec.ofNat 8 z) (BitVec.ofNat 8 y) (BitVec.ofNat 8 x)).value.toNat =
        2 ^ 16 * x + 2 ^ 8 * y + z := by
      rw [Address.fromWire, Address.toNat_ofBytes]
      simp only [BitVec.toNat_ofNat, Nat.mod_eq_of_lt hx, Nat.mod_eq_of_lt hy, Nat.mod_eq_of_lt hz]
    obtain ⟨v⟩ := o
    rw [Address.object, hread, AddressObject.mk.injEq]
    constructor
    · rintro rfl
      constructor
      · simp only
        omega
      · simp only
        omega
    · intro hrange
      have hv := hvalue hrange
      simp only at hv
      omega

theorem address_ok {decimal : Char → Option ℕ} {x : AddressArg} {l : List Byte}
    (h : BuildArgs.address decimal x = .ok l) :
    ∃ o, AddressObject.init decimal x = .ok o ∧ l = o.wire.map lowByte := by
  rw [BuildArgs.address] at h
  split at h
  · next o ho => exact ⟨o, ho, (Except.ok.inj h).symm⟩
  · exact absurd h (by simp)

/-- What a call has checked and laid out when it returns a packet. -/
theorem build_cases {decimal : Char → Option ℕ} {a : BuildArgs} {p : Packet}
    (h : Packet.build decimal a = .ok p) :
    a.ext_data.length ≤ extDataLen ∧ ∃ src, AddressObject.init decimal a.src = .ok src ∧
      ((∃ g, a.dst = none ∧ a.group = some g ∧
        p.data = a.data (src.wire.map lowByte ++ [lowByte g, 0, 0])) ∨
      ∃ x dst, a.dst = some x ∧ a.group = none ∧ AddressObject.init decimal x = .ok dst ∧
        p.data = a.data (dst.wire.map lowByte ++ src.wire.map lowByte)) := by
  rw [Packet.build] at h
  split_ifs at h with hone hlen
  obtain ⟨slots, hslots, hp⟩ := bind_eq_ok h
  obtain rfl := Except.ok.inj hp
  refine ⟨not_lt.mp hlen, ?_⟩
  rw [BuildArgs.slots] at hslots
  split at hslots
  · next g hdst hgroup =>
      obtain ⟨l, hl, hs⟩ := bind_eq_ok hslots
      obtain ⟨src, hsrc, rfl⟩ := address_ok hl
      obtain rfl := Except.ok.inj hs
      exact ⟨src, hsrc, .inl ⟨g, hdst, hgroup, rfl⟩⟩
  · next x hdst hgroup =>
      obtain ⟨d, hd, hs⟩ := bind_eq_ok hslots
      obtain ⟨l, hl, hs⟩ := bind_eq_ok hs
      obtain ⟨dst, hinit, rfl⟩ := address_ok hd
      obtain ⟨src, hsrc, rfl⟩ := address_ok hl
      obtain rfl := Except.ok.inj hs
      exact ⟨src, hsrc, .inr ⟨x, dst, hdst, hgroup, hinit, rfl⟩⟩
  · exact absurd hslots (by simp)

section Built
variable {a : BuildArgs} {slots : List Byte} (h : a.Proper) (hslots : slots.length = 6)
  (hext : a.ext_data.length ≤ extDataLen) {p : Packet} (hp : p.data = a.data slots)

theorem exists_covered (a : BuildArgs) (slots : List Byte) :
    ∃ tail, a.covered slots = a.flags :: (slots ++ lowByte a.cmd1 :: lowByte a.cmd2 :: tail) := by
  rw [BuildArgs.covered]
  dsimp only
  split_ifs
  · simp only [List.append_assoc, List.cons_append, List.nil_append]
    exact ⟨_, rfl⟩
  · exact ⟨[], rfl⟩

include h in
theorem data_eq : a.data slots =
    a.covered slots ++ pktCrc (a.covered slots) :: pad ((a.covered slots).length + 1) a.isExtended := by
  rw [BuildArgs.data]
  simp [h.crc, h.pad]

include hp h in
theorem built_flags : p.flagsByte = a.flags ∧ p.extended = a.isExtended := by
  obtain ⟨tail, hcovered⟩ := exists_covered a slots
  have hflags : p.flagsByte = a.flags := by
    rw [Packet.flagsByte, hp, data_eq h, hcovered]
    rfl
  exact ⟨hflags, by rw [Packet.extended, hflags, (flags_reads h).1]⟩

include hslots hext in
theorem length_covered :
    (a.covered slots).length = if a.isExtended then extCrcIndex else stdCrcIndex := by
  rw [BuildArgs.covered]
  dsimp only
  split_ifs
  · simp only [List.length_append, List.length_cons, List.length_replicate, List.length_nil, hslots,
      extCrcIndex]
    rw [extDataLen] at hext ⊢
    omega
  · simp [hslots, stdCrcIndex]

include h hslots hext hp in
theorem built_crc : p.crcOk = some true := by
  obtain ⟨tail, hcovered⟩ := exists_covered a slots
  have hfirst : firstByte (a.covered slots) = a.flags := by
    rw [hcovered]
    rfl
  refine (crcOk_append (d := a.covered slots) ?_ ?_ (hp.trans (data_eq h))).2
  · simp [hcovered]
  · rw [hfirst, (flags_reads h).1]
    exact length_covered hslots hext

include h hslots hext hp in
theorem built_length : p.data.length = if p.extended then 32 else 13 := by
  rw [(built_flags h hp).2, hp, data_eq h, List.length_append, List.length_cons,
    length_covered hslots hext]
  cases a.isExtended <;> rfl

include h hp in
theorem exists_built :
    ∃ tail, p.data = a.flags :: (slots ++ lowByte a.cmd1 :: lowByte a.cmd2 :: tail) := by
  obtain ⟨tail, hcovered⟩ := exists_covered a slots
  exact ⟨_, by rw [hp, data_eq h, hcovered, List.cons_append, List.append_assoc]; rfl⟩

include h hslots hext hp in
theorem built_extended (hkind : a.isExtended = true) :
    p.extCrcOk = some true ∧
      p.extData = some (a.ext_data ++ List.replicate (extDataLen - a.ext_data.length) 0) := by
  have hextended := (built_flags h hp).2
  rw [hkind] at hextended
  -- the 22 bytes that the checksum follows, of which it covers those from the seventh on
  obtain ⟨base, hbase⟩ : ∃ base, base = a.flags :: (slots ++ [lowByte a.cmd1, lowByte a.cmd2]) ++
      (a.ext_data ++ List.replicate (extDataLen - a.ext_data.length) 0) := ⟨_, rfl⟩
  have hlen : base.length = extDataCrcIndex := by
    rw [hbase]
    simp only [List.length_append, List.length_cons, List.length_replicate, List.length_nil, hslots,
      extDataCrcIndex]
    rw [extDataLen] at hext ⊢
    omega
  have hcovered : a.covered slots = base ++ [extCrc base] := by
    simp only [BuildArgs.covered, hkind, if_true, hbase]
  obtain ⟨rest, hdata⟩ : ∃ rest, p.data = base ++ extCrc base :: rest := by
    rw [hp, data_eq h, hcovered, List.append_assoc]
    exact ⟨_, rfl⟩
  have htake : p.data.take extDataCrcIndex = base := by rw [hdata, List.take_left' hlen]
  constructor
  · rw [Packet.extCrcOk, if_pos hextended]
    have hget : p.data[extDataCrcIndex]? = some (extCrc base) := by
      rw [hdata, List.getElem?_append_right hlen.le, hlen, Nat.sub_self]
      rfl
    have hcrc : extCrc p.data = extCrc base := by
      rw [extCrc, extCrc, htake, List.take_of_length_le hlen.le]
    rw [hget, hcrc]
    simp
  · have hle : 22 ≤ p.data.length := by
      rw [built_length h hslots hext hp, hextended]
      decide
    rw [Packet.extData, hextended, show p.data.take 22 = base from htake, hbase]
    simp only [hle, decide_true, Bool.and_true, if_true]
    rw [List.drop_left' (by simp [hslots])]

include h hslots hext hp in
theorem built_extData :
    (p.extData = if a.ext_data = [] ∧ a.extended ≠ some true then none
      else some (a.ext_data ++ List.replicate (extDataLen - a.ext_data.length) 0)) ↔
      (a.extended = some false → a.ext_data = []) := by
  have hkind := (built_flags h hp).2
  by_cases hgiven : a.isExtended = true
  · rw [(built_extended h hslots hext hp hgiven).2]
    rw [BuildArgs.isExtended_iff] at hgiven
    have hsome : ¬ (a.ext_data = [] ∧ a.extended ≠ some true) := by
      rintro ⟨hnil, hnot⟩
      exact (hgiven.resolve_left hnot).2 hnil
    rw [if_neg hsome]
    refine iff_of_true rfl (fun hfalse => ?_)
    simp [hfalse] at hgiven
  · have hnone : p.extData = none := by simp [Packet.extData, hkind, hgiven]
    rw [BuildArgs.isExtended_iff, not_or] at hgiven
    rw [hnone]
    by_cases hnil : a.ext_data = []
    · simp [hnil, hgiven.1]
    · have hfalse : a.extended = some false := by
        cases hextended : a.extended with
        | none => exact absurd ⟨hextended, hnil⟩ hgiven.2
        | some b =>
            cases b with
            | true => exact absurd hextended hgiven.1
            | false => rfl
      simp [hnil, hfalse]

end Built

theorem toInt_lowByte {n : ℤ} (h : 0 ≤ n ∧ n < 256) : toInt (lowByte n) = n := by
  rw [toInt, lowByte, BitVec.toNat_ofInt]
  omega

/-- Where the slots and the flags stand, they decide who the sender is. -/
theorem built_roles {a : BuildArgs} (h : a.Proper) {x₁ x₂ x₃ y₁ y₂ y₃ : Byte} {p : Packet}
    (hp : p.data = a.data [x₁, x₂, x₃, y₁, y₂, y₃]) :
    p.toAddr = some (Address.fromWire x₁ x₂ x₃) ∧
      senderOf p = some (if a.bcast && a.group.isSome then Address.fromWire x₁ x₂ x₃
        else Address.fromWire y₁ y₂ y₃) ∧
      p.group = if a.bcast && a.group.isSome then some y₁ else none := by
  obtain ⟨tail, hdata⟩ := exists_built h hp
  obtain ⟨-, -, hgroup, hbcast, -, -⟩ := flags_reads h
  have hroles : p.isGroupBroadcast = (a.bcast && a.group.isSome) := by
    rw [Packet.isGroupBroadcast, Packet.bcast, Packet.groupMsg, (built_flags h hp).1, hgroup, hbcast]
  have hto : p.toAddr = some (Address.fromWire x₁ x₂ x₃) := by
    rw [Packet.toAddr, hdata]
    rfl
  refine ⟨hto, ?_, ?_⟩
  · rw [senderOf, Packet.fromAddr, hroles, hto, hdata]
    cases a.bcast && a.group.isSome <;> rfl
  · rw [Packet.group, hroles, hdata]
    rfl

/-- The calls whose packets the accessors read as they were meant. -/
structure BuildArgs.Readable (decimal : Char → Option ℕ) (a : BuildArgs) : Prop where
  group : a.group.isSome = true → a.bcast = true
  extended : a.extended = some false → a.ext_data = []
  src : ¬ AddressObject.Negative decimal a.src
  dst : ∀ x, a.dst = some x → ¬ AddressObject.Negative decimal x

section Reads
variable {decimal : Char → Option ℕ} {a : BuildArgs} {p : Packet}

/-- The readers of addresses and groups decide whether a packet reads back. -/
theorem readsBack_of (h : a.Proper) {slots : List Byte} (hslots : slots.length = 6)
    (hext : a.ext_data.length ≤ extDataLen) (hp : p.data = a.data slots) :
    ReadsBack decimal a p ↔ (a.extended = some false → a.ext_data = []) ∧
      (∀ src, AddressObject.init decimal a.src = .ok src →
        (senderOf p).map Address.object = some src) ∧
      (∀ x dst, a.dst = some x → AddressObject.init decimal x = .ok dst →
        p.toAddr.map Address.object = some dst) ∧
      ∀ g, a.group = some g → p.group.map toInt = some g := by
  obtain ⟨hflags, hkind⟩ := built_flags h hp
  obtain ⟨-, hack, -, hbcast, hmax, hleft⟩ := flags_reads h
  obtain ⟨tail, hdata⟩ := exists_built h hp
  have hcrc := built_crc h hslots hext hp
  have hext22 : p.extended = true → p.extCrcOk = some true := by
    intro hk
    rw [hkind] at hk
    exact (built_extended h hslots hext hp hk).1
  have hcmds : p.data[7]? = some (lowByte a.cmd1) ∧ p.data[8]? = some (lowByte a.cmd2) := by
    rw [hdata, List.getElem?_cons_succ, List.getElem?_cons_succ,
      List.getElem?_append_right (by omega), List.getElem?_append_right (by omega), hslots]
    exact ⟨rfl, rfl⟩
  rw [← built_extData h hslots hext hp]
  constructor
  · intro hr
    exact ⟨hr.extData, hr.sender, hr.dst, hr.group⟩
  · rintro ⟨hdataRead, hsender, hdst, hgroup⟩
    refine ⟨?_, hext22, built_length h hslots hext hp, ?_, ?_, ?_, ?_, ?_, ?_, hdataRead, hsender,
      hdst, hgroup⟩
    · have hboth : p.extCrcOk ≠ some false := by
        cases hk : p.extended with
        | true => simp [hext22 hk]
        | false => simp [Packet.extCrcOk, hk]
      simp [Packet.valid, hcrc, hboth]
    · rw [Packet.cmd1, hcmds.1, Option.map_some, toInt_lowByte h.cmd1]
    · rw [Packet.cmd2, hcmds.2, Option.map_some, toInt_lowByte h.cmd2]
    · rw [Packet.hopsLeft, hflags, hleft]
    · rw [Packet.maxHops, hflags, hmax]
    · rw [Packet.ack, hflags, hack]
    · rw [Packet.bcast, hflags, hbcast]

theorem object_slot {x : AddressArg} {o : AddressObject} (ho : AddressObject.init decimal x = .ok o)
    {b₁ b₂ b₃ : Byte} (hslot : (Address.fromWire b₁ b₂ b₃).object = o ↔ o.InRange) :
    (∀ o', AddressObject.init decimal x = .ok o' →
      (some (Address.fromWire b₁ b₂ b₃)).map Address.object = some o') ↔
      ¬ AddressObject.Negative decimal x := by
  rw [← AddressObject.inRange_iff ho, ← hslot]
  constructor
  · intro hall
    exact Option.some.inj (hall o ho)
  · intro hread o' ho'
    rw [ho, Except.ok.injEq] at ho'
    rw [Option.map_some, hread, ho']

/-- A packet reads back as it was meant unless it is a group message without the broadcast flag,
or extended data are given and forbidden, or an address is negative. -/
theorem readsBack_iff (h : a.Proper) (hbuild : Packet.build decimal a = .ok p) :
    ReadsBack decimal a p ↔ a.Readable decimal := by
  obtain ⟨hext, src, hsrc, hcase⟩ := build_cases hbuild
  obtain ⟨s₁, s₂, s₃, hwire, hslot⟩ := exists_wire src
  rcases hcase with ⟨g, hdst, hg, hp⟩ | ⟨x, dst, hx, hg, hdst, hp⟩
  · rw [hwire] at hp
    obtain ⟨-, hsender, hgroup⟩ := built_roles h hp
    rw [readsBack_of h rfl hext hp, hsender, hgroup]
    cases hb : a.bcast with
    | true =>
        simp only [hg, Option.isSome_some, Bool.and_true, if_true]
        rw [object_slot hsrc hslot]
        constructor
        · rintro ⟨hforbid, hneg, -, -⟩
          exact ⟨fun _ => hb, hforbid, hneg, by simp [hdst]⟩
        · rintro ⟨-, hforbid, hneg, -⟩
          refine ⟨hforbid, hneg, by simp [hdst], ?_⟩
          rintro g' hg'
          rw [Option.some.injEq] at hg'
          rw [Option.map_some, toInt_lowByte (h.group g hg), hg']
    | false =>
        refine iff_of_false ?_ ?_
        · rintro ⟨-, -, -, hall⟩
          exact absurd (hall g hg) (by simp)
        · intro hr
          exact absurd (hr.group (by simp [hg])) (by simp [hb])
  · obtain ⟨d₁, d₂, d₃, hdwire, hdslot⟩ := exists_wire dst
    rw [hwire, hdwire] at hp
    obtain ⟨hto, hsender, -⟩ := built_roles h hp
    rw [readsBack_of h rfl hext hp, hsender, hto]
    simp only [hg, Option.isSome_none, Bool.and_false, Bool.false_eq_true, if_false]
    rw [object_slot hsrc hslot]
    constructor
    · rintro ⟨hforbid, hneg, hall, -⟩
      refine ⟨by simp [hg], hforbid, hneg, ?_⟩
      rintro x' hx'
      obtain rfl : x = x' := Option.some.inj (hx.symm.trans hx')
      exact (object_slot hdst hdslot).mp (fun o ho => hall x o hx ho)
    · rintro ⟨-, hforbid, hneg, hdneg⟩
      refine ⟨hforbid, hneg, ?_, by simp⟩
      intro x' o hx' ho
      obtain rfl : x = x' := Option.some.inj (hx.symm.trans hx')
      exact (object_slot hdst hdslot).mpr (hdneg x hx) o ho

end Reads

/-- A group message, called for as the documentation has it. -/
def groupCall : BuildArgs := { src := .str "13.25.80", group := some 1, cmd1 := 0x11 }

def groupPacket : Packet :=
  Packet.ofBytes 0x4F#8 [0x80#8, 0x25#8, 0x13#8, 0x01#8, 0x00#8, 0x00#8, 0x11#8, 0x00#8, 0x39#8,
    0x00#8, 0x00#8, 0xAA#8]

theorem groupCall_proper : groupCall.Proper := by
  constructor <;> simp [groupCall]

/-- The group is lost, and it stands for the sender. -/
theorem groupCall_misread :
    Packet.build (fun _ => none) groupCall = .ok groupPacket ∧ groupPacket.group = none ∧
      (senderOf groupPacket).map Address.str = some "00.00.01" ∧
      ¬ ∀ a p, a.Proper → Packet.build (fun _ => none) a = .ok p →
        ReadsBack (fun _ => none) a p := by
  have hbuild : Packet.build (fun _ => none) groupCall = .ok groupPacket := by decide
  refine ⟨hbuild, by decide, by decide, ?_⟩
  intro hall
  have hgroup := (hall groupCall groupPacket groupCall_proper hbuild).group 1 rfl
  exact absurd hgroup (by decide)

def broadcastCall : BuildArgs := { groupCall with bcast := true }

def broadcastPacket : Packet :=
  Packet.ofBytes 0xCF#8 [0x80#8, 0x25#8, 0x13#8, 0x01#8, 0x00#8, 0x00#8, 0x11#8, 0x00#8, 0xB9#8,
    0x00#8, 0x00#8, 0xAA#8]

theorem readsBack_iff_broadcast :
    broadcastCall.Proper ∧ Packet.build (fun _ => none) broadcastCall = .ok broadcastPacket ∧
      (ReadsBack (fun _ => none) broadcastCall broadcastPacket ↔
        broadcastCall.Readable (fun _ => none)) := by
  have hproper : broadcastCall.Proper := by
    constructor <;> simp [broadcastCall, groupCall]
  have hbuild : Packet.build (fun _ => none) broadcastCall = .ok broadcastPacket := by decide
  exact ⟨hproper, hbuild, readsBack_iff hproper hbuild⟩

end InsteonRf
