import InsteonRf.AllOn
import InsteonRf.FramingCanonical
import InsteonRf.Lib.Cooldown

/-!
# Alarms for all devices

What the watcher raises is what a cooldown lets through of the candidates it finds. It fails
on one kind of packet only, a broadcast to all devices cut off before its command.
-/
namespace InsteonRf
open OrderedDict

namespace AllOnWatcher

theorem cmd1_eq_none_iff {p : Packet} : p.cmd1 = none ↔ p.data.length < 8 := by
  rw [Packet.cmd1, List.getElem?_eq_none_iff]
  exact Nat.lt_succ_iff.symm

theorem commandText_ok_iff {cmd1 : Option Byte} :
    (∃ text, commandText cmd1 = .ok text) ↔ cmd1 ≠ none := by
  cases cmd1 with
  | none =>
      constructor
      · rintro ⟨text, h⟩
        cases h
      · intro h
        exact absurd rfl h
  | some c =>
      refine iff_of_true ?_ (by simp)
      rw [commandText]
      split_ifs
      · exact ⟨_, rfl⟩
      · exact ⟨_, rfl⟩

theorem groupTriggers_ok_iff {cfg : AllOnConfig} {pkt : Packet} {now : Time} :
    (∃ out, groupTriggers cfg pkt now = .ok out) ↔
      (pkt.group = some allDevicesGroup → pkt.cmd1 ≠ none) := by
  by_cases hzero : pkt.group = some allDevicesGroup
  · rw [groupTriggers, if_pos hzero, forall_prop_of_true hzero, ← commandText_ok_iff]
    cases commandText pkt.cmd1 with
    | error e => simp [bind, Except.bind]
    | ok text => simp [bind, Except.bind, pure, Except.pure]
  · refine iff_of_true ?_ fun h => absurd h hzero
    rw [groupTriggers, if_neg hzero]
    split_ifs
    · exact ⟨_, rfl⟩
    · exact ⟨_, rfl⟩

theorem check_ok_iff {w : AllOnWatcher} {pkt : Packet} {now : Time} :
    (∃ out, (w.check pkt now).2 = .ok out) ↔
      (pkt.isGroupBroadcast = true → pkt.group = some allDevicesGroup → pkt.cmd1 ≠ none) := by
  rw [check]
  split_ifs with hgroup
  · rw [forall_prop_of_true hgroup, ← @groupTriggers_ok_iff w.cfg pkt now]
    cases groupTriggers w.cfg pkt now with
    | error e => simp
    | ok out =>
        simp only
        split_ifs <;> simp
  · exact iff_of_true ⟨_, rfl⟩ fun h => absurd h hgroup

theorem observe_ok_iff_check {w : AllOnWatcher} {b : Burst} {pkt : Packet}
    (h : b.packet = some pkt) :
    (∃ found, (w.observe b).2 = .ok found) ↔
      ∃ out, (((w.record b).tally pkt b.rssi_dbm).check pkt b.now).2 = .ok out := by
  simp only [observe, h]
  cases (((w.record b).tally pkt b.rssi_dbm).check pkt b.now).2 with
  | error e => simp
  | ok out => simp

/-- The watcher answers every burst but a broadcast to all devices that has a group, zero, and
no command. -/
theorem observe_ok_iff (w : AllOnWatcher) (b : Burst) :
    (∃ found, (w.observe b).2 = .ok found) ↔
      ∀ p, b.packet = some p → p.bcast = true → p.groupMsg = true →
        p.data[4]? = some 0 → 8 ≤ p.data.length := by
  cases h : b.packet with
  | none =>
      refine iff_of_true ⟨[], ?_⟩ fun p hp => absurd hp (by simp)
      simp only [observe, h]
  | some pkt =>
      rw [observe_ok_iff_check h, check_ok_iff]
      simp only [Option.some.injEq, forall_eq', Packet.isGroupBroadcast, Bool.and_eq_true, and_imp,
        Packet.group, ne_eq, cmd1_eq_none_iff, not_lt, allDevicesGroup]
      constructor
      · intro hok hbcast hgroup hzero
        exact hok hbcast hgroup (by rw [if_pos ⟨hbcast, hgroup⟩]; exact hzero)
      · intro hok hbcast hgroup hzero
        rw [if_pos ⟨hbcast, hgroup⟩] at hzero
        exact hok hbcast hgroup hzero

/-- A broadcast to all devices that ends after its group. -/
def cutOffAllOn : Packet := Packet.ofBytes 0xCF#8 [0x18#8, 0x58#8, 0x3F#8, 0x00#8]

/-- The hard decoder returns it, and formatting its command fails. -/
theorem observe_cutOffAllOn : ∃ p ∈ parseBits (onAir cutOffAllOn) none 4,
    p.data = cutOffAllOn.data ∧ ((fresh {}).observe { packet := some p }).2 =
      .error ⟨"unsupported format string passed to NoneType.__format__"⟩ := by
  decide +kernel

def candidates (w : AllOnWatcher) (b : Burst) : List Trigger :=
  match b.packet with
  | none => []
  | some pkt =>
      match (((w.record b).tally pkt b.rssi_dbm).check pkt b.now).2 with
      | .error _ => []
      | .ok out => out

def produced : AllOnWatcher → List Burst → List Trigger
  | _, [] => []
  | w, b :: bursts => w.candidates b ++ produced (w.observe b).1 bursts

def cooldown (w : AllOnWatcher) : Cooldown.Table Signature Time := ⟨w.last_fired, w.suppressed⟩

abbrev letThrough (cfg : AllOnConfig) (s : Cooldown.Table Signature Time) (l : List Trigger) :
    Cooldown.Table Signature Time × List Trigger :=
  Cooldown.passed cfg.cooldown_s Trigger.signature Trigger.at_ s l

structure Keeps (w v : AllOnWatcher) : Prop where
  cfg : v.cfg = w.cfg
  triggers : v.triggers = w.triggers
  cooldown : v.cooldown = w.cooldown

theorem Keeps.trans {u v w : AllOnWatcher} (h : u.Keeps v) (h' : v.Keeps w) : u.Keeps w :=
  ⟨h'.cfg.trans h.cfg, h'.triggers.trans h.triggers, h'.cooldown.trans h.cooldown⟩

theorem isFresh_eq (w : AllOnWatcher) (trig : Trigger) (now : Time) :
    (w.isFresh trig now).1.cfg = w.cfg ∧ (w.isFresh trig now).1.triggers = w.triggers ∧
      (w.isFresh trig now).1.cooldown =
        (Cooldown.ask w.cfg.cooldown_s w.cooldown trig.signature now).1 ∧
      (w.isFresh trig now).2 =
        (Cooldown.ask w.cfg.cooldown_s w.cooldown trig.signature now).2 := by
  have hlast : w.cooldown.last = w.last_fired := rfl
  rw [isFresh, Cooldown.ask, hlast]
  cases w.last_fired.get trig.signature with
  | none => exact ⟨rfl, rfl, rfl, rfl⟩
  | some last =>
      simp only
      split_ifs
      · exact ⟨rfl, rfl, rfl, rfl⟩
      · exact ⟨rfl, rfl, rfl, rfl⟩

theorem keepFresh_eq (w : AllOnWatcher) {now : Time} {l : List Trigger}
    (h : ∀ trig ∈ l, trig.at_ = now) :
    (w.keepFresh now l).1.cfg = w.cfg ∧ (w.keepFresh now l).1.triggers = w.triggers ∧
      (w.keepFresh now l).1.cooldown = (letThrough w.cfg w.cooldown l).1 ∧
      (w.keepFresh now l).2 = (letThrough w.cfg w.cooldown l).2 := by
  induction l generalizing w with
  | nil => exact ⟨rfl, rfl, rfl, rfl⟩
  | cons trig l ih =>
      obtain ⟨htrig, hrest⟩ := List.forall_mem_cons.mp h
      obtain ⟨hcfg, htriggers, htable, hasked⟩ := w.isFresh_eq trig now
      obtain ⟨hcfg', htriggers', htable', hkept⟩ := ih (w.isFresh trig now).1 hrest
      rw [htable, hcfg] at htable' hkept
      simp only [keepFresh, letThrough, Cooldown.passed, htrig]
      exact ⟨hcfg'.trans hcfg, htriggers'.trans htriggers, htable', by rw [hasked, hkept]⟩

theorem groupTriggers_at {cfg : AllOnConfig} {pkt : Packet} {now : Time} {out : List Trigger}
    (h : groupTriggers cfg pkt now = .ok out) : ∀ trig ∈ out, trig.at_ = now := by
  by_cases hzero : pkt.group = some allDevicesGroup
  · rw [groupTriggers, if_pos hzero] at h
    cases hcommand : commandText pkt.cmd1 with
    | error e => simp [hcommand, bind, Except.bind] at h
    | ok text =>
        simp only [hcommand, bind, Except.bind, pure, Except.pure, Except.ok.injEq] at h
        rw [← h, List.forall_mem_singleton]
  · rw [groupTriggers, if_neg hzero] at h
    split_ifs at h
    · rw [← Except.ok.inj h, List.forall_mem_singleton]
    · rw [← Except.ok.inj h]
      exact fun trig htrig => absurd htrig List.not_mem_nil

theorem check_keeps (w : AllOnWatcher) (pkt : Packet) (now : Time) :
    w.Keeps (w.check pkt now).1 := by
  rw [check]
  split_ifs
  · simp only
    cases groupTriggers w.cfg pkt now with
    | error e => exact ⟨rfl, rfl, rfl⟩
    | ok out =>
        simp only
        split_ifs
        · exact ⟨rfl, rfl, rfl⟩
        · exact ⟨rfl, rfl, rfl⟩
  · exact ⟨rfl, rfl, rfl⟩

theorem check_at {w : AllOnWatcher} {pkt : Packet} {now : Time} {out : List Trigger}
    (h : (w.check pkt now).2 = .ok out) : ∀ trig ∈ out, trig.at_ = now := by
  rw [check] at h
  split_ifs at h with hgroup
  · simp only at h
    cases hout : groupTriggers w.cfg pkt now with
    | error e => simp [hout] at h
    | ok first =>
        have hfirst := groupTriggers_at hout
        simp only [hout] at h
        split_ifs at h
        · obtain rfl := Except.ok.inj h
          intro trig htrig
          rcases List.mem_append.mp htrig with hmem | hstorm
          · exact hfirst trig hmem
          · rw [List.mem_singleton.mp hstorm]
            rfl
        · obtain rfl := Except.ok.inj h
          exact hfirst
  · obtain rfl := Except.ok.inj h
    exact fun trig htrig => absurd htrig List.not_mem_nil

theorem record_keeps (w : AllOnWatcher) (b : Burst) : w.Keeps (w.record b) := by
  rw [record, expire]
  simp only
  split
  · split_ifs
    · exact ⟨rfl, rfl, rfl⟩
    · exact ⟨rfl, rfl, rfl⟩
  · exact ⟨rfl, rfl, rfl⟩

theorem candidates_at (w : AllOnWatcher) (b : Burst) :
    ∀ trig ∈ w.candidates b, trig.at_ = b.now := by
  rw [candidates]
  cases b.packet with
  | none => exact fun trig htrig => absurd htrig List.not_mem_nil
  | some pkt =>
      simp only
      cases hout : (((w.record b).tally pkt b.rssi_dbm).check pkt b.now).2 with
      | error e => exact fun trig htrig => absurd htrig List.not_mem_nil
      | ok out => exact check_at hout

theorem observe_eq (w : AllOnWatcher) (b : Burst) :
    (w.observe b).1.cfg = w.cfg ∧
      (w.observe b).1.cooldown = (letThrough w.cfg w.cooldown (w.candidates b)).1 ∧
      (w.observe b).1.triggers =
        w.triggers ++ (letThrough w.cfg w.cooldown (w.candidates b)).2 ∧
      ∀ found, (w.observe b).2 = .ok found →
        found = (letThrough w.cfg w.cooldown (w.candidates b)).2 := by
  have hrecord := w.record_keeps b
  rw [candidates, observe]
  cases b.packet with
  | none =>
      refine ⟨hrecord.cfg, hrecord.cooldown, ?_, ?_⟩
      · simpa [letThrough, Cooldown.passed] using hrecord.triggers
      · intro found hfound
        exact (Except.ok.inj hfound).symm
  | some pkt =>
      simp only
      set tallied := (w.record b).tally pkt b.rssi_dbm
      have htally : (w.record b).Keeps tallied := ⟨rfl, rfl, rfl⟩
      have hcheck := (hrecord.trans htally).trans (tallied.check_keeps pkt b.now)
      cases hout : (tallied.check pkt b.now).2 with
      | error e =>
          refine ⟨hcheck.cfg, hcheck.cooldown, ?_, ?_⟩
          · simpa [letThrough, Cooldown.passed] using hcheck.triggers
          · intro found hfound
            cases hfound
      | ok out =>
          obtain ⟨hk, hkt, hktable, hkept⟩ :=
            (tallied.check pkt b.now).1.keepFresh_eq (check_at hout)
          rw [hcheck.cfg, hcheck.cooldown] at hktable hkept
          refine ⟨hk.trans hcheck.cfg, hktable, ?_, ?_⟩
          · simp only [hkt, hcheck.triggers, hkept]
          · intro found hfound
            rw [← Except.ok.inj hfound, hkept]

theorem run_eq (w : AllOnWatcher) (bursts : List Burst) :
    (w.run bursts).1.cfg = w.cfg ∧
      (w.run bursts).1.cooldown = (letThrough w.cfg w.cooldown (w.produced bursts)).1 ∧
      (w.run bursts).1.triggers =
        w.triggers ++ (letThrough w.cfg w.cooldown (w.produced bursts)).2 := by
  induction bursts generalizing w with
  | nil => exact ⟨rfl, rfl, by simp [run, produced, letThrough, Cooldown.passed]⟩
  | cons b bursts ih =>
      obtain ⟨hcfg, htable, htriggers, -⟩ := w.observe_eq b
      obtain ⟨hcfg', htable', htriggers'⟩ := ih (w.observe b).1
      rw [hcfg, htable] at htable' htriggers'
      rw [htriggers] at htriggers'
      rw [run] at hcfg' htable' htriggers'
      rw [run, Machine.run_cons, produced, letThrough, Cooldown.passed_append]
      exact ⟨hcfg'.trans hcfg, htable', by rw [htriggers', List.append_assoc]⟩

theorem produced_at (w : AllOnWatcher) (bursts : List Burst) :
    ∀ trig ∈ w.produced bursts, ∃ b ∈ bursts, trig.at_ = b.now := by
  induction bursts generalizing w with
  | nil => exact fun trig htrig => absurd htrig List.not_mem_nil
  | cons b bursts ih =>
      intro trig htrig
      rcases List.mem_append.mp htrig with hhere | hlater
      · exact ⟨b, List.mem_cons_self, w.candidates_at b trig hhere⟩
      · obtain ⟨c, hc, hat⟩ := ih _ trig hlater
        exact ⟨c, List.mem_cons_of_mem b hc, hat⟩

theorem produced_ordered (w : AllOnWatcher) {bursts : List Burst}
    (h : bursts.Pairwise (fun a b => a.now ≤ b.now)) :
    (w.produced bursts).Pairwise (fun a b => a.at_ ≤ b.at_) := by
  induction bursts generalizing w with
  | nil => exact List.Pairwise.nil
  | cons b bursts ih =>
      obtain ⟨hfirst, hrest⟩ := List.pairwise_cons.mp h
      refine List.pairwise_append.mpr ⟨?_, ih _ hrest, ?_⟩
      · exact List.pairwise_of_forall_mem_list fun x hx y hy => by
          rw [w.candidates_at b x hx, w.candidates_at b y hy]
      · intro x hx y hy
        obtain ⟨c, hc, hat⟩ := produced_at _ bursts y hy
        rw [w.candidates_at b x hx, hat]
        exact hfirst c hc

def alarmSignature (p : Packet) : Signature := (.allLinkGroup0, addressText p.anyAddr, 0)

theorem groupTriggers_alarm {cfg : AllOnConfig} {p : Packet} {now : Time}
    (hcmd : p.cmd1 ≠ none) (hzero : p.group = some allDevicesGroup) :
    ∃ trig, groupTriggers cfg p now = .ok [trig] ∧ trig.signature = alarmSignature p := by
  obtain ⟨text, htext⟩ := commandText_ok_iff.mpr hcmd
  have hnumber : groupNumber p.group = 0 := by
    rw [hzero]
    decide
  rw [groupTriggers, if_pos hzero]
  refine ⟨_, by rw [htext]; rfl, ?_⟩
  simp only [Trigger.signature, alarmSignature, hnumber]

/-- A whole broadcast to all devices is a candidate, the first of its burst. -/
theorem check_alarm {w : AllOnWatcher} {p : Packet} {now : Time} (hlen : 9 ≤ p.data.length)
    (hgroup : p.isGroupBroadcast = true) (hzero : p.group = some allDevicesGroup) :
    ∃ trig rest, (w.check p now).2 = .ok (trig :: rest) ∧ trig.signature = alarmSignature p := by
  have hcmd : p.cmd1 ≠ none := by
    rw [Ne, cmd1_eq_none_iff]
    omega
  obtain ⟨trig, hout, hsignature⟩ := @groupTriggers_alarm w.cfg p now hcmd hzero
  rw [check, if_pos hgroup]
  simp only [hout]
  split_ifs
  · exact ⟨trig, _, rfl, hsignature⟩
  · exact ⟨trig, _, rfl, hsignature⟩

theorem candidates_alarm (w : AllOnWatcher) {b : Burst} {p : Packet} (hb : b.packet = some p)
    (hlen : 9 ≤ p.data.length) (hgroup : p.isGroupBroadcast = true)
    (hzero : p.group = some allDevicesGroup) :
    ∃ trig rest, w.candidates b = trig :: rest ∧ trig.signature = alarmSignature p := by
  obtain ⟨trig, rest, hout, hsignature⟩ :=
    @check_alarm ((w.record b).tally p b.rssi_dbm) p b.now hlen hgroup hzero
  refine ⟨trig, rest, ?_, hsignature⟩
  simp only [candidates, hb, hout]

theorem exists_bounds (bursts : List Burst) (t : Time) :
    ∃ start later, start ≤ t ∧ t ≤ later ∧ ∀ b ∈ bursts, start ≤ b.now ∧ b.now ≤ later := by
  induction bursts with
  | nil => exact ⟨t, t, le_rfl, le_rfl, by simp⟩
  | cons b bursts ih =>
      obtain ⟨start, later, hstart, hlater, hall⟩ := ih
      refine ⟨min start b.now, max later b.now, (min_le_left _ _).trans hstart,
        hlater.trans (le_max_left _ _), ?_⟩
      refine List.forall_mem_cons.mpr ⟨⟨min_le_right _ _, le_max_right _ _⟩, ?_⟩
      intro c hc
      obtain ⟨hc', hc''⟩ := hall c hc
      exact ⟨(min_le_left _ _).trans hc', hc''.trans (le_max_left _ _)⟩

theorem produced_logged (cfg : AllOnConfig) {bursts : List Burst}
    (hordered : bursts.Pairwise (fun a b => a.now ≤ b.now)) {start later : Time}
    (hstart : ∀ b ∈ bursts, start ≤ b.now) (hlater : ∀ b ∈ bursts, b.now ≤ later)
    (hle : start ≤ later) :
    Cooldown.Logged cfg.cooldown_s Trigger.signature Trigger.at_
      ((fresh cfg).run bursts).1.triggers ((fresh cfg).run bursts).1.cooldown later := by
  obtain ⟨-, htable, htriggers⟩ := (fresh cfg).run_eq bursts
  rw [htable, htriggers]
  apply Cooldown.Logged.passed (Cooldown.logged_empty start) _
    (produced_ordered _ hordered) hle
  · intro trig htrig
    obtain ⟨b, hb, hat⟩ := produced_at _ bursts trig htrig
    rw [hat]
    exact hlater b hb
  · intro trig htrig
    obtain ⟨b, hb, hat⟩ := produced_at _ bursts trig htrig
    rw [hat]
    exact hstart b hb

/-- Triggers with one signature are a cooldown apart, each broadcast to all devices raises one
or follows one within the cooldown, and every candidate is raised or counted. -/
theorem run_alarms (cfg : AllOnConfig) {bursts : List Burst}
    (hlong : ∀ b ∈ bursts, ∀ p, b.packet = some p → 9 ≤ p.data.length)
    (hordered : bursts.Pairwise (fun a b => a.now ≤ b.now)) :
    ((fresh cfg).run bursts).1.triggers.Pairwise
        (fun a b => a.signature = b.signature → cfg.cooldown_s ≤ b.at_ - a.at_) ∧
      (∀ before b after, bursts = before ++ b :: after → ∀ p, b.packet = some p →
        p.isGroupBroadcast = true → p.group = some allDevicesGroup →
        (∃ found, (((fresh cfg).run before).1.observe b).2 = .ok found ∧
          ∃ trig ∈ found, trig.signature = alarmSignature p) ∨
        ∃ trig ∈ ((fresh cfg).run before).1.triggers, trig.signature = alarmSignature p ∧
          trig.at_ ≤ b.now ∧ b.now - trig.at_ ≤ cfg.cooldown_s) ∧
      ((fresh cfg).run bursts).1.triggers.length +
          ((fresh cfg).run bursts).1.suppressed.values.sum =
        ((fresh cfg).produced bursts).length := by
  refine ⟨?_, ?_, ?_⟩
  · obtain ⟨start, later, hstart, hlater, hall⟩ := exists_bounds bursts 0
    exact (produced_logged cfg hordered (fun b hb => (hall b hb).1) (fun b hb => (hall b hb).2)
      (hstart.trans hlater)).spaced
  · rintro before b after rfl p hb hgroup hzero
    have hlen : 9 ≤ p.data.length := hlong b (by simp) p hb
    obtain ⟨hbefore, -, hcross⟩ := List.pairwise_append.mp hordered
    obtain ⟨start, _, hstart, _, hall⟩ := exists_bounds before b.now
    have hlogged := produced_logged cfg hbefore (fun c hc => (hall c hc).1)
      (fun c hc => hcross c hc b List.mem_cons_self) hstart
    set w := ((fresh cfg).run before).1 with hw
    have hcfg : w.cfg = cfg := ((fresh cfg).run_eq before).1
    obtain ⟨trig, rest, hcandidates, hsignature⟩ := w.candidates_alarm hb hlen hgroup hzero
    have hat : trig.at_ = b.now := w.candidates_at b trig (by rw [hcandidates]; simp)
    rcases hlogged.covered trig with hask | ⟨c, hc, hkey, hle, hclose⟩
    · left
      obtain ⟨found, hfound⟩ := (observe_ok_iff w b).mpr fun q hq _ _ _ => by
        have hlong' := hlong b (by simp) q hq
        omega
      refine ⟨found, hfound, trig, ?_, hsignature⟩
      obtain ⟨-, -, -, hout⟩ := w.observe_eq b
      rw [hout found hfound, hcandidates, hcfg, letThrough, Cooldown.passed, hask]
      exact List.mem_cons_self
    · right
      rw [hat] at hclose
      exact ⟨c, hc, hkey.trans hsignature, hle, hclose.le⟩
  · obtain ⟨-, htable, htriggers⟩ := (fresh cfg).run_eq bursts
    have hcount := Cooldown.length_passed cfg.cooldown_s Trigger.signature Trigger.at_
      (fresh cfg).cooldown ((fresh cfg).produced bursts)
    have hsuppressed : ((fresh cfg).run bursts).1.suppressed =
        (letThrough cfg (fresh cfg).cooldown ((fresh cfg).produced bursts)).1.suppressed :=
      congrArg Cooldown.Table.suppressed htable
    have hraised : ((fresh cfg).run bursts).1.triggers =
        (letThrough cfg (fresh cfg).cooldown ((fresh cfg).produced bursts)).2 := htriggers
    have hnone : (fresh cfg).cooldown.suppressed.values.sum = 0 := rfl
    rw [hnone, Nat.zero_add] at hcount
    rw [hraised, hsuppressed]
    exact hcount

/-- The same broadcast to all devices three times, the second soon after the first. -/
def alarmBursts : List Burst :=
  let p := Packet.ofBytes 0xCF#8 [0x18#8, 0x58#8, 0x3F#8, 0x00#8, 0x00#8, 0x00#8, 0x11#8, 0x00#8]
  [{ packet := some p, at_ := some 1000 }, { packet := some p, at_ := some 1010 },
    { packet := some p, at_ := some 1400 }]

theorem run_alarms_alarmBursts :
    ((fresh {}).run alarmBursts).1.triggers.map Trigger.at_ = [1000, 1400] ∧
      ((fresh {}).run alarmBursts).1.triggers.Pairwise
        (fun a b => a.signature = b.signature → 300 ≤ b.at_ - a.at_) ∧
      ((fresh {}).run alarmBursts).1.triggers.length +
          ((fresh {}).run alarmBursts).1.suppressed.values.sum =
        ((fresh {}).produced alarmBursts).length := by
  obtain ⟨hspaced, -, hcount⟩ := @run_alarms {} alarmBursts
    (by
      intro b hb p hp
      simp only [alarmBursts, List.mem_cons, List.not_mem_nil, or_false] at hb
      rcases hb with rfl | rfl | rfl <;> (obtain rfl := Option.some.inj hp; decide))
    (by decide +kernel)
  exact ⟨by decide +kernel, hspaced, hcount⟩

end AllOnWatcher

end InsteonRf
