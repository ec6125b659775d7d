import InsteonRf.MeshAccounting
import InsteonRf.FusionNoSplit
import InsteonRf.CombineOwn

/-!
# What the miss table counts

The table asks of a message for its CRC and its hop fields; the injector asks for its frame
counters, too. A packet whose counters were rejected reaches the table from a capture that
has one which recovery could not replace, and from no other.
-/
namespace InsteonRf
open OrderedDict

/-- Of each start header of a capture: where the hard decoder finds a message that the table
would count, but with its counters rejected, recovery finds a packet in its place. -/
def Capture.Trusted (t : MissTable) (cap : Capture) : Prop :=
  ∀ pos ∈ (findHeaders cap.bits).2, ∀ p,
    parseAt (findHeaders cap.bits).1 (packetTime (some cap.timestamp) pos) captureMinBytes pos =
      some p →
    t.Passes p → p.index_ok = some false →
    (Recover.recoverAtOffset (findHeaders cap.bits).1
      (Recover.softFor (findHeaders cap.bits).1 (captureSoft cap.bits cap.soft)) pos
      (packetTime (some cap.timestamp) pos) captureRecovery).isSome

/-- A message that the table counts has counters that were not rejected. -/
def MissTable.Sound (t : MissTable) (p : Packet) : Prop := t.Passes p → p.index_ok ≠ some false

theorem MissTable.passes_congr {t : MissTable} {p q : Packet} (h : p.data = q.data) :
    t.Passes p ↔ t.Passes q := by
  cases p
  cases q
  cases h
  rfl

theorem MissTable.sound_congr {t : MissTable} {p q : Packet} (h : p.data = q.data)
    (hindex : p.index_ok = q.index_ok) : t.Sound p ↔ t.Sound q := by
  rw [Sound, Sound, passes_congr h, hindex]

theorem sound_of_trusted {t : MissTable} {cap : Capture} (h : cap.Trusted t) {clock : Time}
    {s : Sighting} (hs : s ∈ cap.sightings clock) : t.Sound s.packet := by
  obtain ⟨pos, hpos, p, hp, hpacket⟩ := sighting_packetAt hs
  have hsame : t.Sound s.packet ↔ t.Sound p := by
    rw [hpacket]
    exact MissTable.sound_congr rfl rfl
  apply hsame.mpr
  intro hpasses hrejected
  obtain ⟨hparse, hwell | hnone⟩ | ⟨r, hrec, rfl⟩ := packetAt_cases hp
  · rw [decodedWell, Bool.and_eq_true, decide_eq_true_eq, decide_eq_true_eq] at hwell
    exact hwell.2 hrejected
  · have hsome := h pos hpos p hparse hpasses hrejected
    rw [hnone] at hsome
    cases hsome
  · have hfrom := Recover.recoverFrom_natCast (findHeaders cap.bits).1
      (Recover.softFor (findHeaders cap.bits).1 (captureSoft cap.bits cap.soft)) pos
      (packetTime (some cap.timestamp) pos) captureRecovery
    rw [hrec] at hfrom
    obtain ⟨extended, all, ha⟩ := Recover.answer_of_recoverFrom hfrom
    rw [ha.checked] at hrejected
    cases hrejected

namespace Bucket

/-- All copies in the bucket are sound. -/
def Sound (t : MissTable) (b : Bucket) : Prop := ∀ s ∈ b.sightings, t.Sound s.packet

/-- A damaged copy does not count, so it is sound whatever its counters. -/
theorem sound_fold {t : MissTable} (g b : Bucket) (hg : g.Sound t) (hb : b.hasGood = false) :
    (g.addAll b.sightings).Sound t := by
  intro s hs
  rw [sightings_addAll] at hs
  rcases List.mem_append.mp hs with hold | hfolded
  · exact hg s hold
  · intro hpasses
    have hgood : s.good = true := decide_eq_true hpasses.1
    rw [good_false_of_mem hb hfolded] at hgood
    cases hgood

theorem sound_add {t : MissTable} {b : Bucket} (hb : b.Sound t) {s : Sighting}
    (hs : t.Sound s.packet) : (b.add s).Sound t := by
  intro u hu
  rw [sightings_add] at hu
  rcases List.mem_append.mp hu with hold | hnew
  · exact hb u hold
  · obtain rfl := List.mem_singleton.mp hnew
    exact hs

/-- The packet of an event is a copy's, or one that combining accepts. -/
theorem sound_build {t : MissTable} {b : Bucket} (hb : b.Sound t) (allowCombine : Bool) :
    t.Sound (b.build allowCombine).packet := by
  rcases b.choosePacket_cases allowCombine with
    ⟨s, hs, -, hchosen⟩ | ⟨-, ⟨p, n, -, hcombine, hchosen⟩ | hchosen⟩
  · simp only [build, hchosen]
    exact hb s hs
  · simp only [build, hchosen]
    obtain ⟨voted, c, -, -, haccept⟩ := combine_accepted hcombine
    intro _
    exact (checks_of_acceptable (List.find?_some haccept)).2.1
  · simp only [build, hchosen]
    exact hb _ (List.head_mem b.nonempty)

end Bucket

namespace Fusion

theorem sound_fusion_add {t : MissTable} {f : Fusion} (h : ∀ b ∈ f.buckets, b.Sound t)
    {s : Sighting} (hs : t.Sound s.packet) (arrived : Option Time) :
    ∀ b ∈ (f.add s arrived).buckets, b.Sound t := by
  obtain ⟨-, -, hopen, hready, -, -⟩ := noteLag_fields f (f.correct s) arrived
  have hnoted : ∀ b ∈ (f.noteLag (f.correct s) arrived).buckets, b.Sound t := by
    rw [buckets, hopen, hready]
    exact h
  have hcorrected : t.Sound (f.correct s).packet := by
    rw [correct]
    split
    · exact hs
    · exact hs
  intro b hb
  rcases mem_buckets_place hb with hold | ⟨c, hc, rfl⟩ | rfl
  · exact hnoted b hold
  · exact Bucket.sound_add (hnoted c hc) hcorrected
  · intro u hu
    obtain rfl := List.mem_singleton.mp hu
    exact hcorrected

theorem sound_events {t : MissTable} {cfg : FusionConfig} {es : List Emission}
    (h : ∀ e ∈ es, e.bucket.Sound t ∧ e.Built cfg) :
    ∀ e ∈ es.map Emission.event, t.Sound e.packet := by
  intro e he
  obtain ⟨em, hem, rfl⟩ := List.mem_map.mp he
  obtain ⟨hsound, hbuilt⟩ := h em hem
  rw [hbuilt.packet]
  exact Bucket.sound_build hsound cfg.allow_combine

end Fusion

namespace MeshService

/-- The captures among the inputs are such that the table is not deceived. -/
def TrustedOps (t : MissTable) (ops : List Op) : Prop :=
  ∀ cap arrived clock, Op.capture cap arrived clock ∈ ops → cap.Trusted t

theorem observe_fusion (m : MeshService) (arrived clock : Time) (s : Sighting) :
    ∃ mark, (observe arrived clock m s).fusion =
      m.fusion.add { s with packet := { s.packet with ack_of_extended := mark } } (some arrived) := by
  obtain ⟨mark, hmark⟩ := m.tracker.observe_packet s.packet clock
  obtain ⟨tracker, packet, hseen⟩ :
      ∃ tracker packet, m.tracker.observe s.packet clock = (tracker, packet) :=
    ⟨_, _, Prod.mk.eta.symm⟩
  rw [hseen] at hmark
  refine ⟨mark, ?_⟩
  rw [observe, hseen, ← hmark]

theorem sound_observe {t : MissTable} {m : MeshService} (h : ∀ b ∈ m.fusion.buckets, b.Sound t)
    {s : Sighting} (hs : t.Sound s.packet) (arrived clock : Time) :
    ∀ b ∈ (observe arrived clock m s).fusion.buckets, b.Sound t := by
  obtain ⟨mark, hfusion⟩ := m.observe_fusion arrived clock s
  have hmarked : t.Sound { s.packet with ack_of_extended := mark } :=
    (MissTable.sound_congr rfl rfl).mp hs
  rw [hfusion]
  apply Fusion.sound_fusion_add h
  exact hmarked

theorem sound_handleCapture {t : MissTable} {m : MeshService}
    (h : ∀ b ∈ m.fusion.buckets, b.Sound t) {cap : Capture} (hcap : cap.Trusted t)
    (arrived clock : Time) : ∀ b ∈ (m.handleCapture cap arrived clock).fusion.buckets, b.Sound t := by
  have hfold : ∀ (ss : List Sighting) (m : MeshService), (∀ s ∈ ss, t.Sound s.packet) →
      (∀ b ∈ m.fusion.buckets, b.Sound t) →
      ∀ b ∈ (ss.foldl (observe arrived clock) m).fusion.buckets, b.Sound t := by
    intro ss
    induction ss with
    | nil => exact fun m _ hm => hm
    | cons s ss ih =>
        intro m hss hm
        apply ih
        · exact fun u hu => hss u (List.mem_cons_of_mem s hu)
        · exact sound_observe hm (hss s List.mem_cons_self) arrived clock
  exact hfold (cap.sightings clock) { m with captures := m.captures + 1 }
    (fun s hs => sound_of_trusted hcap hs) h

theorem drain_fusion (m : MeshService) (now : Time) (ask : ℕ → Answer) :
    (m.drain now ask).1.fusion = (m.fusion.popReady now).1 ∧
      (m.drain now ask).2.emitted = (m.fusion.popReady now).2.map Emission.event := by
  obtain ⟨fusion, ready, hpop⟩ : ∃ fusion ready, m.fusion.popReady now = (fusion, ready) :=
    ⟨_, _, Prod.mk.eta.symm⟩
  rw [drain, hpop]
  refine ⟨?_, rfl⟩
  simp only
  rw [(settles_finishAll _ _ _ _).frame]

theorem flush_fusion (m : MeshService) (now : Time) (ask : ℕ → Answer) :
    (m.flush now ask).1.fusion = m.fusion := by
  rw [flush]
  simp only
  rw [(settles_finishAll _ _ _ _).frame]

/-- A call keeps the buckets sound, and hands over sound events. -/
theorem sound_step {t : MissTable} {m : MeshService} (h : ∀ b ∈ m.fusion.buckets, b.Sound t)
    {op : Op} (hop : TrustedOps t [op]) :
    (∀ b ∈ (m.step op).1.fusion.buckets, b.Sound t) ∧
      ∀ e ∈ (m.step op).2.emitted, t.Sound e.packet := by
  cases op with
  | capture cap arrived clock =>
      have hcap : cap.Trusted t := hop cap arrived clock List.mem_cons_self
      exact ⟨sound_handleCapture h hcap arrived clock, fun e he => by cases he⟩
  | frame raw now => exact ⟨h, fun e he => by cases he⟩
  | drain now ask =>
      obtain ⟨hfusion, hemitted⟩ := m.drain_fusion now ask
      obtain ⟨hbuckets, hout⟩ := Fusion.ending_rule (.popReady now) rfl (Fusion.foldsKeep Bucket.sound_fold _) h
      rw [step, hfusion, hemitted]
      exact ⟨hbuckets, Fusion.sound_events hout⟩
  | flush now ask =>
      rw [step, m.flush_fusion now ask]
      exact ⟨h, fun e he => by cases he⟩

theorem sound_loop {t : MissTable} {ops : List Op} (hops : TrustedOps t ops) {m : MeshService}
    (h : ∀ b ∈ m.fusion.buckets, b.Sound t) :
    (∀ b ∈ (m.loop ops).1.fusion.buckets, b.Sound t) ∧
      ∀ e ∈ (m.loop ops).2.emitted, t.Sound e.packet := by
  induction ops generalizing m with
  | nil => exact ⟨h, fun e he => by cases he⟩
  | cons op ops ih =>
      have hfirst : TrustedOps t [op] := by
        intro cap arrived clock hmem
        obtain rfl := List.mem_singleton.mp hmem
        exact hops cap arrived clock List.mem_cons_self
      have hrest : TrustedOps t ops := fun cap arrived clock hmem =>
        hops cap arrived clock (List.mem_cons_of_mem op hmem)
      obtain ⟨hbuckets, hout⟩ := sound_step h hfirst
      obtain ⟨hbuckets', hout'⟩ := ih hrest hbuckets
      exact ⟨hbuckets', List.forall_mem_append.mpr ⟨hout, hout'⟩⟩

theorem sound_noted {t : MissTable} {o : MeshOptions} {m : MeshService} {effects : Effects}
    (h : Accounted (new o) m effects) (hout : ∀ e ∈ effects.emitted, t.Sound e.packet) :
    ∀ c ∈ effects.noted, t.Sound c.1.packet := by
  intro c hc
  have hmem : c.1.unjudged ∈ effects.emitted.map FusedEvent.unjudged := by
    have horder := h.order
    rw [show (new o).holding = [] from rfl, List.map_nil, List.nil_append] at horder
    rw [horder]
    exact List.mem_append_left _ (List.mem_map_of_mem hc)
  obtain ⟨e, he, hsame⟩ := List.mem_map.mp hmem
  have hpacket : e.unjudged.packet = c.1.unjudged.packet := congrArg FusedEvent.packet hsame
  have hsound := hout e he
  change e.packet = c.1.packet at hpacket
  rw [hpacket] at hsound
  exact hsound

/-- The table counts the event, for its messages, a receiver or a device. -/
def Counts (t : MissTable) (event : FusedEvent) (injected : Bool) : Prop :=
  ¬ ((t.note event injected).messages = t.messages ∧ (t.note event injected).heard = t.heard ∧
    (t.note event injected).sole = t.sole ∧ (t.note event injected).devices = t.devices)

theorem passes_of_counts {t : MissTable} {event : FusedEvent} {injected : Bool}
    (h : Counts t event injected) : t.Passes event.packet := by
  rcases t.note_cases event injected with
    ⟨-, hst⟩ | ⟨hcrc, hhops, who, hwho, ⟨-, hst⟩ | ⟨-, hst⟩ | ⟨hscores, -⟩⟩
  · exact absurd (by rw [hst]; exact ⟨rfl, rfl, rfl, rfl⟩) h
  · exact absurd (by rw [hst]; exact ⟨rfl, rfl, rfl, rfl⟩) h
  · exact absurd (by rw [hst]; exact ⟨rfl, rfl, rfl, rfl⟩) h
  · exact ⟨hcrc, hhops, who, hwho, hscores⟩

/-- Every event that one of the calls counts carries a verified packet. -/
def OnlyVerified (t : MissTable) (calls : List (FusedEvent × Bool)) : Prop :=
  ∀ u event injected v, calls = u ++ (event, injected) :: v →
    Counts (t.noteAll u) event injected →
    event.packet.crcOk = some true ∧ event.packet.hopsOk = true ∧
      event.packet.index_ok ≠ some false

theorem onlyVerified_of_sound {t : MissTable} {calls : List (FusedEvent × Bool)}
    (h : ∀ c ∈ calls, t.Sound c.1.packet) : OnlyVerified t calls := by
  intro u event injected v hsplit hcounts
  have hpasses : t.Passes event.packet := by
    have hlater := passes_of_counts hcounts
    obtain ⟨hplm, hknown⟩ := noteAll_addrs t u
    simpa only [MissTable.Passes, MissTable.scores, hplm, hknown] using hlater
  have hmem : (event, injected) ∈ calls := by
    rw [hsplit]
    exact List.mem_append_right u List.mem_cons_self
  exact ⟨hpasses.1, hpasses.2.1, h (event, injected) hmem hpasses⟩

/-- In every run whose captures are such that the table is not deceived, what it counts is
verified: before the stop, and after either way of stopping. -/
theorem onlyVerified_run (o : MeshOptions) (ops : List Op)
    (h : TrustedOps (new o).misses ops) :
    OnlyVerified (new o).misses ((new o).loop ops).2.noted ∧
      (∀ now ask, OnlyVerified (new o).misses ((new o).run ops now ask).2.noted) ∧
      ∀ now, OnlyVerified (new o).misses ((new o).meshMain ops now).2.noted := by
  have hstart : ∀ b ∈ (new o).fusion.buckets, b.Sound (new o).misses := by
    intro b hb
    cases hb
  obtain ⟨hbuckets, hout⟩ := sound_loop h hstart
  have hloop := sound_noted ((new o).accounted_loop ops) hout
  have hlast : ∀ now, ∀ e ∈ (((new o).loop ops).1.fusion.flush now).2.map Emission.event,
      (new o).misses.Sound e.packet := fun now =>
    Fusion.sound_events (Fusion.ending_rule (.flush now) rfl (Fusion.foldsKeep Bucket.sound_fold _) hbuckets).2
  refine ⟨onlyVerified_of_sound hloop, ?_, ?_⟩
  · intro now ask
    apply onlyVerified_of_sound
    apply sound_noted ((new o).accounted_run ops now ask)
    exact List.forall_mem_append.mpr ⟨hout, hlast now⟩
  · intro now
    apply onlyVerified_of_sound
    intro c hc
    rcases List.mem_append.mp hc with hearlier | hflushed
    · exact hloop c hearlier
    · obtain ⟨e, he, rfl⟩ := List.mem_map.mp hflushed
      exact hlast now e he

def settledRun (cap : Capture) : List Op :=
  [.capture cap 0 0, .drain 3 (fun _ => { clock := 3, enabled := true }),
    .drain 6 (fun _ => { clock := 6, enabled := true })]

def replacedCapture : Capture := { oneCapture with bits := flipAt oneCapture.bits [78, 79] }

/-- Its counters are rejected, and recovery finds a packet in its place. -/
theorem onlyVerified_run_oneCapture :
    (∃ pos ∈ (findHeaders replacedCapture.bits).2,
      (parseAt (findHeaders replacedCapture.bits).1
        (packetTime (some replacedCapture.timestamp) pos) captureMinBytes pos).map Packet.index_ok =
          some (some false)) ∧
    OnlyVerified (new {}).misses ((new {}).loop (settledRun replacedCapture)).2.noted ∧
      (∀ now ask, OnlyVerified (new {}).misses
        ((new {}).run (settledRun replacedCapture) now ask).2.noted) ∧
      ∀ now, OnlyVerified (new {}).misses
        ((new {}).meshMain (settledRun replacedCapture) now).2.noted := by
  refine ⟨by decide +kernel, onlyVerified_run {} (settledRun replacedCapture) ?_⟩
  intro cap arrived clock hmem
  have hcap : cap = replacedCapture := by
    simp only [settledRun, List.mem_cons, Op.capture.injEq, List.not_mem_nil, or_false,
      reduceCtorEq] at hmem
    exact hmem.1
  rw [hcap]
  have hfound : ∀ pos ∈ (findHeaders replacedCapture.bits).2,
      (Recover.recoverAtOffset (findHeaders replacedCapture.bits).1
        (Recover.softFor (findHeaders replacedCapture.bits).1
          (captureSoft replacedCapture.bits replacedCapture.soft)) pos
        (packetTime (some replacedCapture.timestamp) pos) captureRecovery).isSome := by
    decide +kernel
  exact fun pos hpos _ _ _ _ => hfound pos hpos

def miscountedCapture : Capture :=
  { oneCapture with bits := flipAt oneCapture.bits [78, 79, 106, 107] }

/-- The table counts its message for the device and the receiver. -/
theorem onlyVerified_miscounted :
    ((new {}).loop (settledRun miscountedCapture)).1.misses.messages = 1 ∧
      ((new {}).loop (settledRun miscountedCapture)).1.misses.heard.count "a" = 1 ∧
      ((new {}).loop (settledRun miscountedCapture)).1.misses.devices.keys = ["33.50.1D"] ∧
      ((new {}).loop (settledRun miscountedCapture)).2.noted.map
        (fun c => (c.1.packet.crcOk, c.1.packet.index_ok)) = [(some true, some false)] ∧
      ¬ OnlyVerified (new {}).misses ((new {}).loop (settledRun miscountedCapture)).2.noted := by
  have hnoted : ((new {}).loop (settledRun miscountedCapture)).2.noted.map
      (fun c => (c.1.packet.crcOk, c.1.packet.index_ok)) = [(some true, some false)] := by
    decide +kernel
  have hcounted : ((new {}).loop (settledRun miscountedCapture)).2.noted.map
      (fun c => ((new {}).misses.note c.1 c.2).messages) = [1] := by
    decide +kernel
  refine ⟨by decide +kernel, by decide +kernel, by decide +kernel, hnoted, ?_⟩
  intro h
  generalize ((new {}).loop (settledRun miscountedCapture)).2.noted = calls at h hnoted hcounted
  have hlen : calls.length = 1 := by
    have hmap := congrArg List.length hcounted
    rwa [List.length_map] at hmap
  obtain ⟨⟨event, injected⟩, rfl⟩ := List.length_eq_one_iff.mp hlen
  have hcounts : Counts (new {}).misses event injected := by
    intro hsame
    have hone : ((new {}).misses.note event injected).messages = 1 := List.singleton_inj.mp hcounted
    rw [hsame.1] at hone
    cases hone
  obtain ⟨-, -, hindex⟩ := h [] event injected [] rfl hcounts
  have hrejected : (event.packet.crcOk, event.packet.index_ok) = (some true, some false) :=
    List.singleton_inj.mp hnoted
  exact hindex (Prod.mk.inj hrejected).2

end MeshService

end InsteonRf
