import InsteonRf.Mesh

/-!
# Settling events

What settling does to the service, event by event, and from it what a whole run keeps
account of: events leave the held list in the order in which the fusion handed them over,
each is told once to the miss table and once to the writer, and of those told none is
without the modem's verdict.
-/
namespace InsteonRf
open OrderedDict

/-- The event as the fusion hands it over, without the modem's verdict. -/
def FusedEvent.unjudged (e : FusedEvent) : FusedEvent := { e with plm_saw_it := none }

structure Injectable (cfg : InjectorConfig) (p : Packet) : Prop where
  crc : p.crcOk = some true
  index : p.index_ok ≠ some false
  hops : p.hopsOk = true
  sender : ∃ who, senderOf p = some who ∧ cfg.plm_addr ≠ some who ∧
    ∀ known ∈ cfg.known_addrs, who ∈ known

namespace Injector

theorem any_unknown {known : Option (List Address)} {who : Address} :
    known.any (fun known => decide (who ∉ known)) = true ↔ ∃ l ∈ known, who ∉ l := by
  cases known with
  | none => simp
  | some l => simp

theorem known_of_any {known : Option (List Address)} {who : Address}
    (h : ¬ known.any (fun known => decide (who ∉ known)) = true) : ∀ l ∈ known, who ∈ l := by
  intro l hl
  by_contra hout
  exact h (any_unknown.mpr ⟨l, hl, hout⟩)

theorem sender_of_classify {cfg : InjectorConfig} {p : Packet} {c : Classified p}
    (h : classify cfg p = .ok c) :
    cfg.plm_addr ≠ some c.sender ∧ ∀ known ∈ cfg.known_addrs, c.sender ∈ known := by
  rw [classify] at h
  by_cases hreply : isReply p.msgType = true
  · rw [if_pos hreply] at h
    cases h
  · rw [if_neg hreply] at h
    split at h
    · cases h
    · split_ifs at h with hplm hknown <;> cases h <;>
        exact ⟨hplm, known_of_any hknown⟩

theorem injectable_of_vet {cfg : InjectorConfig} {enabled : Bool} {event : FusedEvent}
    {c : Classified event.packet} (h : vet cfg enabled event = .ok c) :
    Injectable cfg event.packet := by
  obtain ⟨-, hv⟩ := vetted_of_vet h
  obtain ⟨hplm, hknown⟩ := sender_of_classify hv.classified
  constructor
  · exact hv.crc
  · exact hv.index
  · exact hv.hops
  · exact ⟨c.sender, c.sender_eq, hplm, hknown⟩

/-- Of the event the injector writes the verdict alone, and that never to leave it open. -/
theorem consider_event (inj : Injector) (enabled : Bool) (event : FusedEvent) (now : Time)
    (h : event.plm_saw_it ≠ none) :
    ∃ saw, (inj.consider enabled event now).2.event = { event with plm_saw_it := some saw } := by
  obtain ⟨before, hbefore⟩ := Option.ne_none_iff_exists'.mp h
  have hsame : event = { event with plm_saw_it := some before } := by rw [← hbefore]
  unfold consider
  simp only
  split
  · exact ⟨before, hsame⟩
  · split_ifs
    · exact ⟨true, rfl⟩
    · exact ⟨false, rfl⟩
    · exact ⟨false, rfl⟩
    · split
      · exact ⟨false, rfl⟩
      · exact ⟨false, rfl⟩
    · split
      · exact ⟨false, rfl⟩
      · exact ⟨false, rfl⟩

theorem consider_injected (inj : Injector) (enabled : Bool) (event : FusedEvent) (now : Time) :
    (inj.consider enabled event now).1.counters.injected =
      inj.counters.injected +
        if (inj.consider enabled event now).2.decision.inject then 1 else 0 := by
  rcases inj.consider_cases enabled event now with
    ⟨saw, reason, hst⟩ | ⟨-, d, hd, hst⟩ | ⟨c, frame, -, -, -, -, -, -, hst⟩
  · rw [hst]
    rfl
  · rw [hst]
    simp only [hd]
    rfl
  · rw [hst]
    rfl

end Injector

namespace MeshService

def injectedCount (m : MeshService) : ℕ := (m.injector.map (fun i => i.counters.injected)).getD 0

def injectorConfig (m : MeshService) : Option InjectorConfig := m.injector.map Injector.cfg

/-- What settling some events does: `settled` lists them with their verdicts and whether
they were injected. -/
structure Settles (m : MeshService) (events : List FusedEvent) (next : MeshService)
    (settled : List (FusedEvent × Bool)) : Prop where
  frame : next = { m with
    injector := next.injector
    memory := next.memory
    misses := m.misses.noteAll settled }
  same : settled.map (fun c => c.1.unjudged) = events.map FusedEvent.unjudged
  judged : ∀ c ∈ settled, c.1.plm_saw_it ≠ none
  config : next.injectorConfig = m.injectorConfig
  count : next.injectedCount = m.injectedCount + settled.countP Prod.snd
  injectable : ∀ c ∈ settled, c.2 = true → ∃ cfg ∈ m.injectorConfig, Injectable cfg c.1.packet

theorem consult_cases (m : MeshService) (event : FusedEvent) (now : Time) (a : Answer) :
    m.consult event now a = (m, event, false) ∨
      ∃ inj next outcome, m.injector = some inj ∧
        ({ inj with memory := m.memory } : Injector).consider a.enabled event now =
          (next, outcome) ∧
        m.consult event now a = ({ m with injector := some next, memory := next.memory },
          outcome.event, outcome.decision.inject) := by
  unfold consult
  cases hinj : m.injector with
  | none => exact Or.inl rfl
  | some inj =>
      by_cases hmay : m.mayInject a.clock = true
      · obtain ⟨next, outcome, hasked⟩ : ∃ next outcome,
            ({ inj with memory := m.memory } : Injector).consider a.enabled event now =
              (next, outcome) := ⟨_, _, Prod.mk.eta.symm⟩
        refine Or.inr ⟨inj, next, outcome, rfl, hasked, ?_⟩
        simp only [hmay, if_true, hasked]
      · simp only [hmay]
        exact Or.inl rfl

theorem consult_spec {m next : MeshService} {event judged : FusedEvent} {injected : Bool}
    {now : Time} {a : Answer} (h : m.consult event now a = (next, judged, injected))
    (hevent : event.plm_saw_it ≠ none) :
    next = { m with injector := next.injector, memory := next.memory } ∧
      (∃ saw, judged = { event with plm_saw_it := some saw }) ∧
      next.injectorConfig = m.injectorConfig ∧
      next.injectedCount = m.injectedCount + (if injected then 1 else 0) ∧
      (injected = true → ∃ cfg ∈ m.injectorConfig, Injectable cfg event.packet) := by
  rcases m.consult_cases event now a with hidle | ⟨inj, asked, outcome, hinj, hasked, hst⟩
  · rw [hidle] at h
    obtain ⟨rfl, rfl, rfl⟩ := h
    obtain ⟨before, hbefore⟩ := Option.ne_none_iff_exists'.mp hevent
    exact ⟨rfl, ⟨before, by rw [← hbefore]⟩, rfl, rfl, fun hf => by cases hf⟩
  · rw [hst] at h
    obtain ⟨rfl, rfl, rfl⟩ := h
    have hcfg := Injector.consider_cfg { inj with memory := m.memory } a.enabled event now
    have hcount := Injector.consider_injected { inj with memory := m.memory } a.enabled event now
    have hwrites := Injector.consider_event { inj with memory := m.memory } a.enabled event now
      hevent
    rw [hasked] at hcfg hcount hwrites
    refine ⟨rfl, hwrites, ?_, ?_, ?_⟩
    · simpa only [injectorConfig, hinj, Option.map_some, Option.some.injEq] using hcfg
    · simpa only [injectedCount, hinj, Option.map_some, Option.getD_some] using hcount
    · intro hinject
      rw [show outcome = (({ inj with memory := m.memory } : Injector).consider a.enabled event
        now).2 by rw [hasked]] at hinject
      obtain ⟨c, hvet, -⟩ := Injector.injected_cases hinject
      exact ⟨inj.cfg, by simp [injectorConfig, hinj], Injector.injectable_of_vet hvet⟩

theorem settles_nil (m : MeshService) : Settles m [] m [] := by
  constructor
  · rfl
  · rfl
  · simp
  · rfl
  · rfl
  · simp

theorem settles_cons {m m' next : MeshService} {event judged : FusedEvent} {injected : Bool}
    {events : List FusedEvent} {settled : List (FusedEvent × Bool)} {now : Time} {a : Answer}
    (hfinish : m.finish event now a = (m', judged, injected))
    (h : Settles m' events next settled) :
    Settles m (event :: events) next ((judged, injected) :: settled) := by
  obtain ⟨asked, e, i, hconsult⟩ : ∃ asked e i, m.consult { event with
      plm_saw_it := some (m.memory.heard event.key event.last_seen) } now a = (asked, e, i) :=
    ⟨_, _, _, rfl⟩
  obtain ⟨hframe, ⟨saw, hevent⟩, hconfig, hcount, hinjectable⟩ :=
    consult_spec hconsult (by simp)
  rw [finish, hconsult] at hfinish
  obtain ⟨rfl, rfl, rfl⟩ := hfinish
  constructor
  · have hnext := h.frame
    rw [hframe] at hnext
    exact hnext
  · rw [List.map_cons, List.map_cons, h.same, hevent]
    rfl
  · intro c hc
    rcases List.mem_cons.mp hc with rfl | hlater
    · rw [hevent]
      exact Option.some_ne_none saw
    · exact h.judged c hlater
  · exact h.config.trans hconfig
  · have hrest : next.injectedCount = asked.injectedCount + settled.countP Prod.snd := h.count
    rw [List.countP_cons, hrest, hcount, Nat.add_assoc, Nat.add_comm (if injected = true then 1 else 0)]
  · have hrest : ∀ c ∈ settled, c.2 = true →
        ∃ cfg ∈ asked.injectorConfig, Injectable cfg c.1.packet := h.injectable
    rw [hconfig] at hrest
    intro c hc
    rcases List.mem_cons.mp hc with rfl | hlater
    · rw [hevent]
      exact hinjectable
    · exact hrest c hlater

theorem settles_finishAll (now : Time) (events : List FusedEvent) (m : MeshService)
    (ask : ℕ → Answer) :
    Settles m events (finishAll now m events ask).1 (finishAll now m events ask).2 := by
  induction events generalizing m ask with
  | nil => exact m.settles_nil
  | cons event events ih => exact settles_cons rfl (ih _ _)

/-- What calls of the service keep account of: `m` before them, `next` after them. -/
structure Accounted (m : MeshService) (next : MeshService) (effects : Effects) : Prop where
  order : m.holding.map (fun h => h.2.unjudged) ++ effects.emitted.map FusedEvent.unjudged =
    effects.noted.map (fun c => c.1.unjudged) ++ next.holding.map (fun h => h.2.unjudged)
  events : next.events = m.events + effects.emitted.length
  misses : next.misses = m.misses.noteAll effects.noted
  writer : next.writer = m.writer
  written : effects.written = m.records effects.noted
  judged : ∀ c ∈ effects.noted, c.1.plm_saw_it ≠ none
  config : next.injectorConfig = m.injectorConfig
  count : next.injectedCount = m.injectedCount + effects.noted.countP Prod.snd
  injectable : ∀ c ∈ effects.noted, c.2 = true →
    ∃ cfg ∈ m.injectorConfig, Injectable cfg c.1.packet

theorem accounted_refl (m : MeshService) : Accounted m m {} := by
  constructor <;> simp [records, MissTable.noteAll]

theorem Accounted.append {m m' m'' : MeshService} {e e' : Effects} (h : Accounted m m' e)
    (h' : Accounted m' m'' e') : Accounted m m'' (e.append e') := by
  constructor
  · simp only [Effects.append, List.map_append]
    rw [← List.append_assoc, h.order, List.append_assoc, h'.order, List.append_assoc]
  · rw [h'.events, h.events, Effects.append, List.length_append, Nat.add_assoc]
  · rw [h'.misses, h.misses, MissTable.noteAll, MissTable.noteAll, ← List.foldl_append]
    rfl
  · exact h'.writer.trans h.writer
  · simp only [Effects.append, h.written, h'.written, records, h.writer]
    split_ifs
    · rw [List.map_append]
    · rfl
  · exact List.forall_mem_append.mpr ⟨h.judged, h'.judged⟩
  · exact h'.config.trans h.config
  · rw [h'.count, h.count, Effects.append, List.countP_append, Nat.add_assoc]
  · have hlater := h'.injectable
    rw [h.config] at hlater
    exact List.forall_mem_append.mpr ⟨h.injectable, hlater⟩

theorem accounted_quiet {m next : MeshService} (hholding : next.holding = m.holding)
    (hevents : next.events = m.events) (hmisses : next.misses = m.misses)
    (hwriter : next.writer = m.writer) (hinjector : next.injector = m.injector) :
    Accounted m next {} := by
  constructor
  · rw [hholding]
    simp
  · exact hevents
  · exact hmisses
  · exact hwriter
  · simp [records]
  · simp
  · rw [injectorConfig, hinjector]
    rfl
  · rw [injectedCount, hinjector]
    rfl
  · simp

theorem accounted_handleCapture (m : MeshService) (cap : Capture) (arrived clock : Time) :
    Accounted m (m.handleCapture cap arrived clock) {} := by
  have hfold : ∀ (ss : List Sighting) (m : MeshService),
      (ss.foldl (observe arrived clock) m).holding = m.holding ∧
        (ss.foldl (observe arrived clock) m).events = m.events ∧
        (ss.foldl (observe arrived clock) m).misses = m.misses ∧
        (ss.foldl (observe arrived clock) m).writer = m.writer ∧
        (ss.foldl (observe arrived clock) m).injector = m.injector := by
    intro ss
    induction ss with
    | nil => exact fun m => ⟨rfl, rfl, rfl, rfl, rfl⟩
    | cons s ss ih => exact fun m => ih (observe arrived clock m s)
  obtain ⟨hholding, hevents, hmisses, hwriter, hinjector⟩ :=
    hfold (cap.sightings clock) { m with captures := m.captures + 1 }
  exact accounted_quiet hholding hevents hmisses hwriter hinjector

theorem unjudged_held (holding : List (Time × FusedEvent)) (events : List FusedEvent) (t : Time) :
    (holding ++ events.map (fun e => (t, e))).map (fun h => h.2.unjudged) =
      holding.map (fun h => h.2.unjudged) ++ events.map FusedEvent.unjudged := by
  rw [List.map_append, List.map_map]
  rfl

/-- New events from the fusion join the held ones. -/
theorem accounted_receive (m : MeshService) (fusion : Fusion) (events : List FusedEvent)
    (t : Time) :
    Accounted m { m with
      fusion, events := m.events + events.length
      holding := m.holding ++ events.map (fun e => (t, e)) } { emitted := events } := by
  constructor
  · rw [unjudged_held]
    simp
  · rfl
  · rfl
  · rfl
  · simp [records]
  · simp
  · rfl
  · rfl
  · simp

/-- The front of the held events is settled, before or after it has left the list. -/
theorem accounted_settles {m m₁ next : MeshService} {due later : List (Time × FusedEvent)}
    {settled : List (FusedEvent × Bool)} (hm₁ : m₁ = { m with holding := m₁.holding })
    (hheld : m.holding = due ++ later) (h : Settles m₁ (due.map Prod.snd) next settled) :
    Accounted m { next with holding := later }
      { noted := settled, written := next.records settled } := by
  have hframe := h.frame
  have hconfig := h.config
  have hcount := h.count
  have hinjectable := h.injectable
  rw [hm₁] at hframe hconfig hcount hinjectable
  constructor
  · rw [hheld, List.map_append, h.same, List.map_map, List.map_nil, List.append_nil]
    rfl
  · rw [hframe]
    rfl
  · rw [hframe]
  · rw [hframe]
  · rw [hframe]
    rfl
  · exact h.judged
  · exact hconfig
  · exact hcount
  · exact hinjectable

theorem accounted_drain (m : MeshService) (now : Time) (ask : ℕ → Answer) :
    Accounted m (m.drain now ask).1 (m.drain now ask).2 := by
  obtain ⟨fusion, ready, hpop⟩ : ∃ fusion ready, m.fusion.popReady now = (fusion, ready) :=
    ⟨_, _, Prod.mk.eta.symm⟩
  have hreceive := m.accounted_receive fusion (ready.map Emission.event) (now + m.plm_grace_s)
  generalize hm' : ({ m with
    fusion := fusion
    events := m.events + (ready.map Emission.event).length
    holding := m.holding ++ (ready.map Emission.event).map (fun e => (now + m.plm_grace_s, e)) } :
      MeshService) = m' at hreceive
  generalize hdue : m'.holding.takeWhile (fun h => decide (h.1 ≤ now)) = due
  generalize hlater : m'.holding.dropWhile (fun h => decide (h.1 ≤ now)) = later
  have hsettles := settles_finishAll now (due.map Prod.snd) { m' with holding := later } ask
  have hdrain : m.drain now ask =
      ((finishAll now { m' with holding := later } (due.map Prod.snd) ask).1,
        { emitted := ready.map Emission.event
          noted := (finishAll now { m' with holding := later } (due.map Prod.snd) ask).2
          written := (finishAll now { m' with holding := later } (due.map Prod.snd) ask).1.records
            (finishAll now { m' with holding := later } (due.map Prod.snd) ask).2 }) := by
    rw [drain, hpop, ← hdue, ← hlater, ← hm']
  generalize finishAll now { m' with holding := later } (due.map Prod.snd) ask = r at hsettles hdrain
  have hkept : { r.1 with holding := later } = r.1 := by
    rw [hsettles.frame]
  have hsplit : m'.holding = due ++ later := by
    rw [← hdue, ← hlater, List.takeWhile_append_dropWhile]
  have hsettled := accounted_settles (m := m') rfl hsplit hsettles
  rw [hkept] at hsettled
  rw [hdrain]
  simpa only [Effects.append, List.append_nil, List.nil_append] using hreceive.append hsettled

theorem accounted_flush (m : MeshService) (now : Time) (ask : ℕ → Answer) :
    Accounted m (m.flush now ask).1 (m.flush now ask).2 := by
  apply accounted_settles rfl _ (settles_finishAll _ _ _ _)
  rw [List.append_nil]

theorem accounted_shutdown (m : MeshService) (now : Time) (ask : ℕ → Answer) :
    Accounted m (m.shutdown now ask).1 (m.shutdown now ask).2 := by
  obtain ⟨fusion, ready, hflush⟩ : ∃ fusion ready, m.fusion.flush now = (fusion, ready) :=
    ⟨_, _, Prod.mk.eta.symm⟩
  have hreceive := m.accounted_receive fusion (ready.map Emission.event) now
  have hall := hreceive.append (accounted_flush _ now ask)
  rw [shutdown, hflush]
  simpa only [Effects.append, List.append_nil, List.nil_append, flush] using hall

theorem accounted_step (m : MeshService) (op : Op) : Accounted m (m.step op).1 (m.step op).2 := by
  cases op with
  | capture cap arrived clock => exact m.accounted_handleCapture cap arrived clock
  | frame raw now => exact accounted_quiet rfl rfl rfl rfl rfl
  | drain now ask => exact m.accounted_drain now ask
  | flush now ask => exact m.accounted_flush now ask

theorem accounted_loop (ops : List Op) (m : MeshService) :
    Accounted m (m.loop ops).1 (m.loop ops).2 := by
  induction ops generalizing m with
  | nil => exact m.accounted_refl
  | cons op ops ih => exact (m.accounted_step op).append (ih (m.step op).1)

theorem accounted_run (m : MeshService) (ops : List Op) (now : Time) (ask : ℕ → Answer) :
    Accounted m (m.run ops now ask).1 (m.run ops now ask).2 :=
  (m.accounted_loop ops).append ((m.loop ops).1.accounted_shutdown now ask)

end MeshService

end InsteonRf
