import InsteonRf.Inject
import InsteonRf.Lib.RateWindow

/-!
# Rate limits over whole runs

The per-device map bounds the injections so far of each sender, and the pruned
list of recent injections answers every later call as the whole history would.
-/
namespace InsteonRf
open OrderedDict RateWindow

namespace Injector

def injections (out : List Outcome) : List Outcome := out.filter (fun o => o.decision.inject)

def considerTimes (ops : List Op) : List Time :=
  ops.filterMap (fun op => match op with
    | .consider _ _ now => some now
    | .notePlm _ _ => none)

/-- The second of two injections for one sender comes at least the interval later. -/
def SpacedBy (interval : Time) (a b : Outcome) : Prop :=
  senderOf a.event.packet = senderOf b.event.packet → a.now + interval ≤ b.now

/-- What the limiter's two memories say of the injections so far, `times` being the
calls still to come. -/
structure LimitsInv (inj : Injector) (past : List Outcome) (times : List Time) : Prop where
  before : ∀ o ∈ past, ∀ t ∈ times, o.now ≤ t
  devices : ∀ o ∈ past, ∀ a, senderOf o.event.packet = some a →
    ∃ u, inj.last_per_device.get a = some u ∧ o.now ≤ u
  recent : ∀ t ∈ times,
    pruned 60 t inj.recent_injections = pruned 60 t (past.map Outcome.now)
  spaced : past.Pairwise (SpacedBy inj.cfg.per_device_interval_s)
  limited : Limited 60 inj.cfg.global_per_minute.toNat (past.map Outcome.now)

variable {inj : Injector} {past : List Outcome} {now : Time} {times : List Time}

theorem recent_begin (h : LimitsInv inj past (now :: times)) :
    (inj.begin now).recent_injections = pruned 60 now (past.map Outcome.now) :=
  h.recent now (by simp)

theorem limitsInv_of_kept {inj' : Injector} (h : LimitsInv inj past (now :: times))
    (hsorted : ∀ t ∈ times, now ≤ t) (hcfg : inj'.cfg = inj.cfg)
    (hlast : inj'.last_per_device = inj.last_per_device)
    (hrecent : inj'.recent_injections = (inj.begin now).recent_injections) :
    LimitsInv inj' past times := by
  refine ⟨fun o ho t ht => h.before o ho t (List.mem_cons_of_mem _ ht), ?_, ?_, ?_, ?_⟩
  · rw [hlast]
    exact h.devices
  · intro t ht
    rw [hrecent, recent_begin h, pruned_pruned (hsorted t ht)]
  · rw [hcfg]
    exact h.spaced
  · rw [hcfg]
    exact h.limited

/-- An injection past both limits is spaced from the earlier ones of its sender and
finds room in the minute before it. -/
theorem limitsInv_inject (h : LimitsInv inj past (now :: times)) (hsorted : ∀ t ∈ times, now ≤ t)
    {event : FusedEvent} {tier : Tier} {sender : Address} {frame : List Byte}
    (hsender : senderOf event.packet = some sender)
    (hdevice : (inj.begin now).perDeviceLimited sender now = false)
    (hglobal : (inj.begin now).globalLimited = false) :
    LimitsInv ((inj.begin now).inject now event tier sender frame).1
      (past ++ [((inj.begin now).inject now event tier sender frame).2]) times := by
  have hpast : ∀ o ∈ past, o.now ≤ now := fun o ho => h.before o ho now (by simp)
  refine ⟨?_, ?_, ?_, ?_, ?_⟩
  · intro o ho t ht
    rcases List.mem_append.mp ho with hold | hnew
    · exact h.before o hold t (List.mem_cons_of_mem _ ht)
    · obtain rfl := List.mem_singleton.mp hnew
      exact hsorted t ht
  · intro o ho a ha
    by_cases hsame : a = sender
    · subst hsame
      refine ⟨now, Dict.get_set_self _ _ _, ?_⟩
      rcases List.mem_append.mp ho with hold | hnew
      · exact hpast o hold
      · obtain rfl := List.mem_singleton.mp hnew
        exact le_refl now
    · rcases List.mem_append.mp ho with hold | hnew
      · obtain ⟨u, hu, hle⟩ := h.devices o hold a ha
        exact ⟨u, (Dict.get_set_of_ne _ hsame _).trans hu, hle⟩
      · obtain rfl := List.mem_singleton.mp hnew
        exact absurd (Option.some.inj (ha.symm.trans hsender)) hsame
  · intro t ht
    simp only [inject, List.map_append, List.map_singleton, pruned_append, recent_begin h,
      pruned_pruned (hsorted t ht)]
  · refine List.pairwise_append.mpr ⟨h.spaced, List.pairwise_singleton _ _, ?_⟩
    intro o ho p hp hsame
    obtain rfl := List.mem_singleton.mp hp
    obtain ⟨u, hu, hle⟩ := h.devices o ho sender (hsame.trans hsender)
    have hgap : u + inj.cfg.per_device_interval_s ≤ now :=
      perDeviceLimited_eq_false.mp hdevice u hu
    exact (add_le_add_left hle _).trans hgap
  · rw [List.map_append, List.map_singleton]
    apply limited_snoc h.limited
    have hroom := globalLimited_eq_false.mp hglobal
    rw [recent_begin h, begin_cfg] at hroom
    exact (Int.lt_toNat).mpr hroom

theorem limitsInv_consider (hshadow : inj.cfg.shadow = false)
    (h : LimitsInv inj past (now :: times)) (hsorted : ∀ t ∈ times, now ≤ t) (enabled : Bool)
    (event : FusedEvent) :
    LimitsInv (inj.consider enabled event now).1
      (past ++ injections [(inj.consider enabled event now).2]) times := by
  rcases inj.consider_cases enabled event now with
    ⟨saw, reason, hst⟩ | ⟨hon, -⟩ | ⟨c, frame, -, -, -, hdevice, hglobal, -, hst⟩
  · have hnone : injections [(inj.consider enabled event now).2] = [] := by
      rw [hst]
      rfl
    rw [hnone, List.append_nil, hst]
    exact limitsInv_of_kept h hsorted rfl rfl rfl
  · rw [hshadow] at hon
    cases hon
  · have hone : injections [(inj.consider enabled event now).2] =
        [(inj.consider enabled event now).2] := by
      rw [hst]
      rfl
    rw [hone, hst]
    exact limitsInv_inject h hsorted c.sender_eq hdevice hglobal

/-- Every call of `consider` is counted again under what became of it. -/
def Counters.Balanced (c : Counters) : Prop :=
  c.considered = c.injected + c.would_inject + c.refused.values.sum

theorem balanced_step {inj : Injector} (h : Counters.Balanced inj.counters) (op : Op) :
    Counters.Balanced (inj.step op).1.counters := by
  cases op with
  | notePlm raw now => exact h
  | consider enabled event now =>
      rw [Counters.Balanced] at h ⊢
      rcases inj.consider_cases enabled event now with
        ⟨saw, reason, hst⟩ | ⟨-, d, -, hst⟩ | ⟨c, frame, -, -, -, -, -, -, hst⟩
      · simp only [step, hst, no, Counters.refuse, Dict.sum_bump, begin_counters]
        omega
      · simp only [step, hst, begin_counters]
        omega
      · simp only [step, hst, inject, begin_counters]
        omega

/-- An outcome calls `publish` once, with its frame and event, when it is an injection
and a callback is given, and not otherwise. -/
def PublishedOnce (cfg : InjectorConfig) (o : Outcome) : Prop :=
  (o.decision.inject = true ∧ ∃ frame, o.decision.frame = some frame ∧
      o.published = if cfg.publish then [(frame, o.event)] else []) ∨
    (o.decision.inject = false ∧ o.published = [])

theorem publishedOnce_consider (inj : Injector) (enabled : Bool) (event : FusedEvent)
    (now : Time) : PublishedOnce inj.cfg (inj.consider enabled event now).2 := by
  rcases inj.consider_cases enabled event now with
    ⟨saw, reason, hst⟩ | ⟨-, d, hd, hst⟩ | ⟨c, frame, -, -, -, -, -, -, hst⟩ <;> rw [hst]
  · exact Or.inr ⟨rfl, rfl⟩
  · exact Or.inr ⟨hd, rfl⟩
  · exact Or.inl ⟨rfl, frame, rfl, rfl⟩

theorem limitsInv_run {ops : List Op} (hshadow : inj.cfg.shadow = false)
    (h : LimitsInv inj past (considerTimes ops))
    (hsorted : (considerTimes ops).Pairwise (· ≤ ·)) :
    LimitsInv (inj.run ops).1 (past ++ injections (inj.run ops).2) [] := by
  induction ops generalizing inj past with
  | nil => simpa [considerTimes, injections, run] using h
  | cons op ops ih =>
      cases op with
      | notePlm raw now =>
          have hkept : LimitsInv (inj.step (.notePlm raw now)).1 past (considerTimes ops) :=
            ⟨h.before, h.devices, h.recent, h.spaced, h.limited⟩
          exact ih hshadow hkept hsorted
      | consider enabled event now =>
          have htimes : considerTimes (.consider enabled event now :: ops) =
              now :: considerTimes ops := rfl
          rw [htimes] at h hsorted
          obtain ⟨hfirst, hrest⟩ := List.pairwise_cons.mp hsorted
          have hstep := ih (by rw [consider_cfg]; exact hshadow)
            (limitsInv_consider hshadow h hfirst enabled event) hrest
          rw [run_cons, injections, List.filter_append, ← List.append_assoc]
          exact hstep

theorem publishedOnce_run (inj : Injector) (ops : List Op) :
    ∀ o ∈ (inj.run ops).2, PublishedOnce inj.cfg o := by
  induction ops generalizing inj with
  | nil => simp [run]
  | cons op ops ih =>
      intro o ho
      rw [run_cons] at ho
      rcases List.mem_append.mp ho with hhere | hrest
      · cases op with
        | notePlm raw now => simp [step] at hhere
        | consider enabled event now =>
            obtain rfl := List.mem_singleton.mp hhere
            exact publishedOnce_consider inj enabled event now
      · have hlater := ih (inj.step op).1 o hrest
        rw [step_cfg] at hlater
        exact hlater

/-- In every run with nondecreasing times and shadow mode off, injections for one sender
are spaced, every minute is limited, each injection is published once, and the
counters balance after every call. -/
theorem run_limits (cfg : InjectorConfig) (memory : Option PlmMemory) (ops : List Op)
    (hshadow : cfg.shadow = false) (hsorted : (considerTimes ops).Pairwise (· ≤ ·)) :
    let out := ((new cfg memory).run ops).2
    (injections out).Pairwise (fun a b =>
        senderOf a.event.packet = senderOf b.event.packet →
          a.now + cfg.per_device_interval_s ≤ b.now) ∧
      (∀ start, ((injections out).countP
          (fun o => decide (start ≤ o.now ∧ o.now < start + 60))) ≤ cfg.global_per_minute.toNat) ∧
      (∀ start, ((injections out).countP
          (fun o => decide (start < o.now ∧ o.now ≤ start + 60))) ≤ cfg.global_per_minute.toNat) ∧
      (∀ o ∈ out, PublishedOnce cfg o) ∧
      ∀ us, us <+: ops → Counters.Balanced ((new cfg memory).run us).1.counters := by
  intro out
  have hstart : LimitsInv (new cfg memory) [] (considerTimes ops) :=
    ⟨by simp, by simp, fun _ _ => rfl, List.Pairwise.nil, limited_nil _ _⟩
  have hcfg : ((new cfg memory).run ops).1.cfg = cfg := run_cfg (new cfg memory) ops
  have hend := limitsInv_run hshadow hstart hsorted
  rw [List.nil_append] at hend
  have hspaced := hend.spaced
  have hlimited := hend.limited
  rw [hcfg] at hspaced hlimited
  refine ⟨hspaced, ?_, ?_, publishedOnce_run (new cfg memory) ops, ?_⟩
  · intro start
    have hcount := window_le hlimited start
    rwa [← List.countP_eq_length_filter, List.countP_map] at hcount
  · intro start
    have hcount := window_le' hlimited start
    rwa [← List.countP_eq_length_filter, List.countP_map] at hcount
  · intro us _
    have hzero : Counters.Balanced (new cfg memory).counters := rfl
    exact Machine.invariant (P := fun inj : Injector => Counters.Balanced inj.counters)
      (fun inj op h => balanced_step h op) hzero us

/-- One command considered three times, the second too soon after the first. -/
def repeatedCommand : List Op :=
  [.consider true (commandEvent 0) 0, .consider true (commandEvent 5) 5,
    .consider true (commandEvent 40) 40]

theorem run_limits_repeatedCommand :
    ((injections ((new openConfig none).run repeatedCommand).2).map Outcome.now) = [0, 40] ∧
      (∀ start, ((injections ((new openConfig none).run repeatedCommand).2).countP
        (fun o => decide (start ≤ o.now ∧ o.now < start + 60))) ≤ 6) :=
  ⟨by decide +kernel,
    (run_limits openConfig none repeatedCommand rfl (by decide +kernel)).2.1⟩

end Injector

end InsteonRf
