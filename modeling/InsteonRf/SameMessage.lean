import InsteonRf.AllOn
import InsteonRf.Monitor
import InsteonRf.PlmCodec

/-!
# When two packets are one message

Three keys say so: the one of fusion and suppression, the one of the log, and the one of the
search for evidence. The first two drop the CRC, the third keeps a zero in its place.
-/
namespace InsteonRf
open AllOnWatcher

@[simp] theorem length_maskHopsLeft (l : List Byte) : (maskHopsLeft l).length = l.length := by
  cases l <;> rfl

theorem dedupeKey_eq (p : Packet) : dedupeKey p = messageKey p := by
  have hne : (if p.crcIndex < p.data.length then p.data.take p.crcIndex else p.data) ≠ [] := by
    have hpos := crcIndex_pos p
    split_ifs with hlt
    · apply List.ne_nil_of_length_pos
      rw [List.length_take]
      omega
    · exact p.data_ne
  rw [dedupeKey, messageKey]
  obtain ⟨f, rest, hlist⟩ := List.exists_cons_of_ne_nil hne
  simp only [hlist]
  rfl

theorem length_messageKey (p : Packet) :
    (messageKey p).length = min p.crcIndex p.data.length := by
  rw [messageKey_eq, length_maskHopsLeft, List.length_take]

theorem copyKey_eq (p : Packet) :
    copyKey p = messageKey p ++ if p.crcIndex < p.data.length then [0] else [] := by
  rw [copyKey, messageKey_eq]
  by_cases hlt : p.crcIndex < p.data.length
  · obtain ⟨c, hc⟩ : ∃ c, p.data.take (p.crcIndex + 1) = p.data.take p.crcIndex ++ [c] :=
      ⟨_, List.take_succ_eq_append_getElem hlt⟩
    have hpos := crcIndex_pos p
    have hlen : (p.data.take p.crcIndex).length = p.crcIndex := by
      rw [List.length_take]
      omega
    obtain ⟨f, rest, hlist⟩ : ∃ f rest, p.data.take p.crcIndex = f :: rest := by
      apply List.exists_cons_of_ne_nil
      apply List.ne_nil_of_length_pos
      omega
    rw [hlist, List.length_cons] at hlen
    rw [if_pos hlt, hc, hlist, ← hlen]
    simp [maskHopsLeft]
  · rw [if_neg hlt, List.take_of_length_le (by omega), List.take_of_length_le (by omega),
      if_neg (by simpa using hlt), List.append_nil]

theorem crcIndex_of_head {p q : Packet} (h : (messageKey p).head? = (messageKey q).head?) :
    p.crcIndex = q.crcIndex := by
  have hhead : ∀ r : Packet, (messageKey r).head? = some (r.flagsByte &&& ~~~0x0C#8) := by
    intro r
    obtain ⟨n, hn⟩ := Nat.exists_eq_succ_of_ne_zero (Nat.ne_of_gt (crcIndex_pos r))
    rw [messageKey_eq, hn, Packet.flagsByte]
    cases hdata : r.data with
    | nil => exact absurd hdata r.data_ne
    | cons f rest => rfl
  rw [hhead, hhead] at h
  rw [Packet.crcIndex, Packet.crcIndex, Packet.extended, Packet.extended,
    isExtended_of_masked (Option.some.inj h)]

/-- Either all three keys take the packets for copies of one message, or none does. -/
structure KeysAgree (p q : Packet) : Prop where
  dedupe : dedupeKey p = dedupeKey q ↔ messageKey p = messageKey q
  evidence : copyKey p = copyKey q ↔ messageKey p = messageKey q

/-- `p` ends right before its CRC, and `q` has the same bytes and goes on. -/
def CutBeforeCrc (p q : Packet) : Prop :=
  p.data.length = p.crcIndex ∧ q.crcIndex < q.data.length ∧
    maskHopsLeft p.data = maskHopsLeft (q.data.take q.crcIndex)

/-- The zero in the place of a CRC is no byte of a message of the same kind. -/
theorem messageKey_concat_ne {p : Packet} (h : p.crcIndex < p.data.length) (q : Packet) :
    messageKey p ++ [0] ≠ messageKey q := by
  intro heq
  have hlen := congrArg List.length heq
  rw [List.length_append, length_messageKey, length_messageKey, min_eq_left h.le,
    List.length_singleton] at hlen
  have hne : messageKey p ≠ [] := by
    apply List.ne_nil_of_length_pos
    rw [length_messageKey, min_eq_left h.le]
    exact crcIndex_pos p
  have hhead : (messageKey p).head? = (messageKey q).head? := by
    rw [← heq, List.head?_append_of_ne_nil _ hne]
  have hkind := crcIndex_of_head hhead
  omega

theorem copyKey_eq_iff (p q : Packet) :
    copyKey p = copyKey q ↔ messageKey p = messageKey q ∧
      (p.crcIndex < p.data.length ↔ q.crcIndex < q.data.length) := by
  rw [copyKey_eq, copyKey_eq]
  by_cases hp : p.crcIndex < p.data.length
  · by_cases hq : q.crcIndex < q.data.length
    · simp [hp, hq]
    · simpa [hp, hq] using messageKey_concat_ne hp q
  · by_cases hq : q.crcIndex < q.data.length
    · simpa [hp, hq] using (messageKey_concat_ne hq p).symm
    · simp [hp, hq]

/-- The keys disagree exactly where one packet was cut off right before its CRC and the other
goes on: they are one message for fusion and for the log, and two for the evidence. -/
theorem keys_agree_iff (p q : Packet) :
    KeysAgree p q ↔ ¬ CutBeforeCrc p q ∧ ¬ CutBeforeCrc q p := by
  have hcut : ∀ r s : Packet, messageKey r = messageKey s → s.crcIndex < s.data.length →
      (CutBeforeCrc r s ↔ ¬ r.crcIndex < r.data.length) := by
    intro r s hkey hs
    have hkind : r.crcIndex = s.crcIndex := crcIndex_of_head (congrArg List.head? hkey)
    have hlen := congrArg List.length hkey
    rw [length_messageKey, length_messageKey] at hlen
    constructor
    · rintro ⟨hend, -, -⟩
      omega
    · intro hshort
      refine ⟨by omega, hs, ?_⟩
      rw [messageKey_eq, messageKey_eq, List.take_of_length_le (by omega)] at hkey
      exact hkey
  have hkeys : ∀ r s : Packet, CutBeforeCrc r s → messageKey r = messageKey s := by
    rintro r s ⟨hend, -, hbytes⟩
    rw [messageKey_eq, messageKey_eq, List.take_of_length_le hend.le]
    exact hbytes
  have hagree : KeysAgree p q ↔ (messageKey p = messageKey q →
      (p.crcIndex < p.data.length ↔ q.crcIndex < q.data.length)) := by
    constructor
    · intro h hkey
      exact ((copyKey_eq_iff p q).mp (h.evidence.mpr hkey)).2
    · intro h
      refine ⟨by rw [dedupeKey_eq, dedupeKey_eq], ?_⟩
      rw [copyKey_eq_iff]
      exact and_iff_left_of_imp h
  rw [hagree]
  constructor
  · intro h
    refine ⟨?_, ?_⟩
    · intro hpq
      have hkey := hkeys p q hpq
      exact (hcut p q hkey hpq.2.1).mp hpq ((h hkey).mpr hpq.2.1)
    · intro hqp
      have hkey := (hkeys q p hqp).symm
      exact (hcut q p hkey.symm hqp.2.1).mp hqp ((h hkey).mp hqp.2.1)
  · rintro ⟨hpq, hqp⟩ hkey
    constructor
    · intro hp
      by_contra hq
      exact hqp ((hcut q p hkey.symm hp).mpr hq)
    · intro hq
      by_contra hp
      exact hpq ((hcut p q hkey hq).mpr hp)

/-- An ON to a group, whole and without its CRC. -/
def groupOn : Packet :=
  Packet.ofBytes 0xCF#8 [0x18#8, 0x58#8, 0x3F#8, 0x00#8, 0x00#8, 0x00#8, 0x11#8, 0x00#8, 0x31#8]

def groupOnCut : Packet :=
  Packet.ofBytes 0xCF#8 [0x18#8, 0x58#8, 0x3F#8, 0x00#8, 0x00#8, 0x00#8, 0x11#8, 0x00#8]

/-- The watcher's evidence for the one leaves the other out. -/
theorem groupOnCut_left_out :
    messageKey groupOnCut = messageKey groupOn ∧ dedupeKey groupOnCut = dedupeKey groupOn ∧
      ((((fresh {}).observe { packet := some groupOnCut, at_ := some 10 }).1.copiesOf
        groupOn).length = 0) ∧
      ¬ ∀ p q : Packet, KeysAgree p q := by
  refine ⟨by decide, by decide, by decide +kernel, ?_⟩
  intro hall
  have hsame := (hall groupOnCut groupOn).evidence.mpr (by decide)
  exact absurd hsame (by decide)

end InsteonRf
