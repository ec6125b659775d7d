import InsteonRf.MeshSettling

/-!
# The balance of the miss table

Every settled event is filed under one heading of the table, and each message under one
device, with a definite verdict of the modem. What the injector hands on passes every
filter of the table, so its own count is the devices' sum.
-/
namespace InsteonRf
open OrderedDict

theorem senderOf_of_crcOk {p : Packet} (h : p.crcOk = some true) : ∃ who, senderOf p = some who := by
  obtain ⟨c, hc, -⟩ := Option.map_eq_some_iff.mp h
  obtain ⟨hlen, -⟩ := List.getElem?_eq_some_iff.mp hc
  have hlong : 9 ≤ p.data.length := by
    rw [Packet.crcIndex] at hlen
    split_ifs at hlen
    · simp only [extCrcIndex] at hlen
      omega
    · simp only [stdCrcIndex] at hlen
      omega
  obtain ⟨flags, a₁, a₂, a₃, b₁, b₂, b₃, c₁, c₂, tail, hdata⟩ := exists_nine hlong
  by_cases hgroup : p.isGroupBroadcast = true
  · exact ⟨Address.fromWire a₁ a₂ a₃, by simp [senderOf, hgroup, Packet.toAddr, hdata]⟩
  · exact ⟨Address.fromWire b₁ b₂ b₃, by simp [senderOf, hgroup, Packet.fromAddr, hdata]⟩

namespace MissTable

theorem note_cases (t : MissTable) (event : FusedEvent) (injected : Bool) :
    (¬ (event.packet.crcOk = some true ∧ event.packet.hopsOk = true) ∧
      t.note event injected = { t with undecodable := t.undecodable + 1 }) ∨
    (event.packet.crcOk = some true ∧ event.packet.hopsOk = true ∧
      ∃ who, senderOf event.packet = some who ∧
        ((t.plm_addr = some who ∧ t.note event injected =
            { t with plm_own_transmissions := t.plm_own_transmissions + 1 }) ∨
          ((∃ known ∈ t.known_addrs, who ∉ known) ∧ t.note event injected =
            { t with unknown_senders := t.unknown_senders + 1 }) ∨
          (t.scores who ∧ t.note event injected = t.score event injected who))) := by
  by_cases hok : event.packet.crcOk ≠ some true ∨ event.packet.hopsOk = false
  · refine Or.inl ⟨?_, by rw [note, if_pos hok]⟩
    rintro ⟨hcrc, hhops⟩
    rcases hok with hbad | hbad
    · exact hbad hcrc
    · rw [hhops] at hbad
      cases hbad
  · rw [not_or, not_not, Bool.not_eq_false] at hok
    obtain ⟨hcrc, hhops⟩ := hok
    obtain ⟨who, hwho⟩ := senderOf_of_crcOk hcrc
    refine Or.inr ⟨hcrc, hhops, who, hwho, ?_⟩
    have hfiled : t.note event injected =
        if t.plm_addr = some who then { t with plm_own_transmissions := t.plm_own_transmissions + 1 }
        else if t.known_addrs.any (fun known => decide (who ∉ known)) then
          { t with unknown_senders := t.unknown_senders + 1 }
        else t.score event injected who := by
      rw [note, if_neg (by simp [hcrc, hhops]), hwho]
    by_cases hplm : t.plm_addr = some who
    · exact Or.inl ⟨hplm, by rw [hfiled, if_pos hplm]⟩
    by_cases hknown : t.known_addrs.any (fun known => decide (who ∉ known)) = true
    · exact Or.inr (Or.inl ⟨Injector.any_unknown.mp hknown,
        by rw [hfiled, if_neg hplm, if_pos hknown]⟩)
    · exact Or.inr (Or.inr ⟨⟨hplm, Injector.known_of_any hknown⟩,
        by rw [hfiled, if_neg hplm, if_neg hknown]⟩)

def Passes (t : MissTable) (p : Packet) : Prop :=
  p.crcOk = some true ∧ p.hopsOk = true ∧ ∃ who, senderOf p = some who ∧ t.scores who

theorem note_of_passes {t : MissTable} {event : FusedEvent} (h : t.Passes event.packet)
    (injected : Bool) : ∃ who, t.note event injected = t.score event injected who := by
  obtain ⟨hcrc, hhops, who, hwho, hplm, hknown⟩ := h
  rcases t.note_cases event injected with
    ⟨hbad, -⟩ | ⟨-, -, who', hwho', ⟨hown, -⟩ | ⟨⟨known, hmem, hout⟩, -⟩ | ⟨-, hst⟩⟩
  · exact absurd ⟨hcrc, hhops⟩ hbad
  · obtain rfl := Option.some.inj (hwho.symm.trans hwho')
    exact absurd hown hplm
  · obtain rfl := Option.some.inj (hwho.symm.trans hwho')
    exact absurd (hknown known hmem) hout
  · exact ⟨who', hst⟩

theorem note_addrs (t : MissTable) (event : FusedEvent) (injected : Bool) :
    (t.note event injected).plm_addr = t.plm_addr ∧
      (t.note event injected).known_addrs = t.known_addrs := by
  rcases t.note_cases event injected with
    ⟨-, hst⟩ | ⟨-, -, who, -, ⟨-, hst⟩ | ⟨-, hst⟩ | ⟨-, hst⟩⟩ <;> rw [hst] <;> exact ⟨rfl, rfl⟩

/-- What the table's counters satisfy after a number of calls of `note`. -/
structure Balanced (t : MissTable) (settled : ℕ) : Prop where
  total : settled = t.undecodable + t.plm_own_transmissions + t.unknown_senders + t.messages
  heard_by_rf : (t.devices.values.map DeviceMisses.heard_by_rf).sum = t.messages
  verdicts : ∀ d ∈ t.devices.values, d.plm_also_heard + d.plm_missed = d.heard_by_rf
  sole : ∀ r, t.sole.count r ≤ t.heard.count r
  heard : ∀ r, t.heard.count r ≤ t.messages

theorem verdicts_note {d : DeviceMisses} {event : FusedEvent}
    (hd : d.plm_also_heard + d.plm_missed = d.heard_by_rf) (h : event.plm_saw_it ≠ none)
    (injected : Bool) : (d.note event injected).plm_also_heard +
      (d.note event injected).plm_missed = (d.note event injected).heard_by_rf := by
  obtain ⟨saw, hsaw⟩ := Option.ne_none_iff_exists'.mp h
  cases saw with
  | false =>
      simp only [DeviceMisses.note, hsaw, Option.some.injEq, Bool.false_eq_true, if_false, if_true]
      omega
  | true =>
      simp only [DeviceMisses.note, hsaw, Option.some.injEq, Bool.true_eq_false, if_false, if_true]
      omega

/-- The sum over the devices grows by what the one device gains. -/
theorem sum_score (f : DeviceMisses → ℕ) {t : MissTable} {event : FusedEvent} {injected : Bool}
    {n : ℕ} (hempty : f {} = 0) (hnote : ∀ d : DeviceMisses, f (d.note event injected) = f d + n)
    (who : Address) :
    ((t.score event injected who).devices.values.map f).sum = (t.devices.values.map f).sum + n := by
  apply Dict.sum_values_set_add
  rw [hnote]
  cases t.devices.get who.str with
  | none => rw [Option.getD_none, hempty]; rfl
  | some d => rfl

/-- A message is heard by each receiver at most once, and by a sole one at least. -/
theorem balanced_score {t : MissTable} {settled : ℕ} (h : t.Balanced settled) {event : FusedEvent}
    (hsaw : event.plm_saw_it ≠ none) (injected : Bool) (who : Address) :
    (t.score event injected who).Balanced (settled + 1) := by
  have hheard : ∀ r, (t.score event injected who).heard.count r =
      t.heard.count r + event.receivers.keys.count r :=
    fun r => Dict.count_foldl_bump event.receivers.keys t.heard r
  constructor
  · have htotal := h.total
    simp only [score]
    omega
  · rw [sum_score DeviceMisses.heard_by_rf rfl (fun _ => rfl), h.heard_by_rf]
    rfl
  · intro d hd
    rcases Dict.mem_values_set hd with rfl | hold
    · apply verdicts_note _ hsaw
      cases hget : t.devices.get who.str with
      | none => rfl
      | some d => exact h.verdicts d (Dict.mem_values_of_get hget)
    · exact h.verdicts d (Dict.mem_values_erase hold)
  · intro r
    rw [hheard r]
    have hsole := h.sole r
    simp only [score]
    split
    · rename_i only hkeys
      rw [hkeys, Dict.count_bump, List.count_singleton]
      simp only [beq_iff_eq, eq_comm (a := only)]
      omega
    · omega
  · intro r
    rw [hheard r]
    have hold := h.heard r
    have hone := List.nodup_iff_count_le_one.mp event.receivers.nodup r
    exact Nat.add_le_add hold hone

theorem balanced_setAside {t : MissTable} {settled : ℕ} (h : t.Balanced settled) {u p n : ℕ}
    (hone : u + p + n = t.undecodable + t.plm_own_transmissions + t.unknown_senders + 1) :
    MissTable.Balanced { t with undecodable := u, plm_own_transmissions := p, unknown_senders := n }
      (settled + 1) := by
  have htotal := h.total
  refine ⟨?_, h.heard_by_rf, h.verdicts, h.sole, h.heard⟩
  simp only
  omega

theorem balanced_note {t : MissTable} {settled : ℕ} (h : t.Balanced settled) {event : FusedEvent}
    (hsaw : event.plm_saw_it ≠ none) (injected : Bool) :
    (t.note event injected).Balanced (settled + 1) := by
  rcases t.note_cases event injected with
    ⟨-, hst⟩ | ⟨-, -, who, -, ⟨-, hst⟩ | ⟨-, hst⟩ | ⟨-, hst⟩⟩ <;> rw [hst]
  · exact balanced_setAside h (by omega)
  · exact balanced_setAside h (by omega)
  · exact balanced_setAside h (by omega)
  · exact balanced_score h hsaw injected who

theorem balanced_noteAll {t : MissTable} {settled : ℕ} (h : t.Balanced settled)
    {calls : List (FusedEvent × Bool)} (hsaw : ∀ c ∈ calls, c.1.plm_saw_it ≠ none) :
    (t.noteAll calls).Balanced (settled + calls.length) := by
  induction calls generalizing t settled with
  | nil => exact h
  | cons c calls ih =>
      have hfirst := balanced_note h (hsaw c List.mem_cons_self) c.2
      have hrest := ih hfirst (fun d hd => hsaw d (List.mem_cons_of_mem _ hd))
      rw [List.length_cons, Nat.add_comm calls.length, ← Nat.add_assoc]
      exact hrest

theorem injected_noteAll {t : MissTable} {calls : List (FusedEvent × Bool)}
    (h : ∀ c ∈ calls, c.2 = true → t.Passes c.1.packet) :
    ((t.noteAll calls).devices.values.map DeviceMisses.injected).sum =
      (t.devices.values.map DeviceMisses.injected).sum + calls.countP Prod.snd := by
  induction calls generalizing t with
  | nil => rfl
  | cons c calls ih =>
      obtain ⟨event, injected⟩ := c
      have hone : ((t.note event injected).devices.values.map DeviceMisses.injected).sum =
          (t.devices.values.map DeviceMisses.injected).sum + if injected then 1 else 0 := by
        cases injected with
        | true =>
            obtain ⟨who, hst⟩ := note_of_passes (h (event, true) List.mem_cons_self rfl) true
            rw [hst]
            exact sum_score DeviceMisses.injected rfl (fun _ => rfl) who
        | false =>
            rcases t.note_cases event false with
              ⟨-, hst⟩ | ⟨-, -, who, -, ⟨-, hst⟩ | ⟨-, hst⟩ | ⟨-, hst⟩⟩ <;> rw [hst]
            · rfl
            · rfl
            · rfl
            · exact sum_score DeviceMisses.injected rfl (fun _ => rfl) who
      obtain ⟨hplm, hknown⟩ := t.note_addrs event injected
      have hrest := ih (t := t.note event injected) (by
        intro c hc hinjected
        have hpasses := h c (List.mem_cons_of_mem _ hc) hinjected
        simpa only [Passes, scores, hplm, hknown] using hpasses)
      rw [List.countP_cons, ← Nat.add_assoc, Nat.add_right_comm, ← hone]
      exact hrest

theorem balanced_new (plm_addr : Option Address) (known_addrs : Option (List Address)) :
    ({ plm_addr, known_addrs } : MissTable).Balanced 0 := by
  constructor
  · rfl
  · rfl
  · simp
  · exact fun r => le_rfl
  · exact fun r => le_rfl

end MissTable

namespace MeshService

/-- The service's counters after it settled a number of events; the last equation is for
an injector that knows the same addresses as the table. -/
structure Books (m : MeshService) (settled : ℕ) : Prop where
  events : m.events = m.holding.length + settled
  settled : settled = m.misses.undecodable + m.misses.plm_own_transmissions +
    m.misses.unknown_senders + m.misses.messages
  heard_by_rf : (m.misses.devices.values.map DeviceMisses.heard_by_rf).sum = m.misses.messages
  verdicts : ∀ d ∈ m.misses.devices.values, d.plm_also_heard + d.plm_missed = d.heard_by_rf
  sole : ∀ r, m.misses.sole.count r ≤ m.misses.heard.count r
  heard : ∀ r, m.misses.heard.count r ≤ m.misses.messages
  injected : ∀ inj, m.injector = some inj → m.misses.plm_addr = inj.cfg.plm_addr →
    m.misses.known_addrs = inj.cfg.known_addrs →
    (m.misses.devices.values.map DeviceMisses.injected).sum = inj.counters.injected

theorem noteAll_addrs (t : MissTable) (calls : List (FusedEvent × Bool)) :
    (t.noteAll calls).plm_addr = t.plm_addr ∧ (t.noteAll calls).known_addrs = t.known_addrs := by
  induction calls generalizing t with
  | nil => exact ⟨rfl, rfl⟩
  | cons c calls ih =>
      obtain ⟨hplm, hknown⟩ := ih (t.note c.1 c.2)
      obtain ⟨hplm', hknown'⟩ := t.note_addrs c.1 c.2
      exact ⟨hplm.trans hplm', hknown.trans hknown'⟩

theorem injectedCount_new (o : MeshOptions) : (new o).injectedCount = 0 := by
  unfold injectedCount new
  cases o.injector <;> rfl

/-- What is accounted for since the start balances. -/
theorem books_of_accounted {o : MeshOptions} {m : MeshService} {effects : Effects}
    (h : Accounted (new o) m effects) : Books m effects.noted.length := by
  have hbalanced : m.misses.Balanced effects.noted.length := by
    have hstart := MissTable.balanced_new (new o).misses.plm_addr (new o).misses.known_addrs
    have hend := MissTable.balanced_noteAll hstart h.judged
    rw [Nat.zero_add] at hend
    rw [h.misses]
    exact hend
  constructor
  · have hlen := congrArg List.length h.order
    have hempty : (new o).holding = [] := rfl
    have hzero : (new o).events = 0 := rfl
    have hevents := h.events
    simp only [hempty, List.map_nil, List.nil_append, List.length_append, List.length_map] at hlen
    omega
  · exact hbalanced.total
  · exact hbalanced.heard_by_rf
  · exact hbalanced.verdicts
  · exact hbalanced.sole
  · exact hbalanced.heard
  · intro inj hinj hplm hknown
    obtain ⟨hplm', hknown'⟩ := noteAll_addrs (new o).misses effects.noted
    rw [h.misses, hplm'] at hplm
    rw [h.misses, hknown'] at hknown
    have hconfig : (new o).injectorConfig = some inj.cfg := by
      rw [← h.config, injectorConfig, hinj]
      rfl
    have hpasses : ∀ c ∈ effects.noted, c.2 = true → (new o).misses.Passes c.1.packet := by
      intro c hc hinjected
      obtain ⟨cfg, hcfg, hok⟩ := h.injectable c hc hinjected
      obtain rfl : inj.cfg = cfg := Option.some.inj (hconfig.symm.trans hcfg)
      obtain ⟨who, hwho, hother, hmember⟩ := hok.sender
      refine ⟨hok.crc, hok.hops, who, hwho, ?_, ?_⟩
      · rw [hplm]
        exact hother
      · rw [hknown]
        exact hmember
    have hsum := MissTable.injected_noteAll hpasses
    have hcount := h.count
    rw [injectedCount_new, injectedCount, hinj] at hcount
    rw [h.misses, hsum]
    exact hcount.symm

/-- The books balance throughout the loop and after the shutdown. -/
theorem books_run (o : MeshOptions) (ops : List Op) :
    Books ((new o).loop ops).1 ((new o).loop ops).2.noted.length ∧
      ∀ (now : Time) (ask : ℕ → Answer),
        Books ((new o).run ops now ask).1 ((new o).run ops now ask).2.noted.length := by
  constructor
  · exact books_of_accounted ((new o).accounted_loop ops)
  · intro now ask
    exact books_of_accounted ((new o).accounted_run ops now ask)

end MeshService

end InsteonRf
