import InsteonRf.Packet
import InsteonRf.Lib.Machine

/-!
# The receive loop's watchdogs

A dongle that has gone deaf says nothing and raises nothing. The receive loop therefore re-arms it
when no packet was decoded for a while, and resets it only where it does not answer or cannot be
re-armed. Apart from that it strobes the radio out of receive and back after each quiet second.
Packets are decoded on another thread, which moves the time of the last one forward.
-/
namespace InsteonRf.Watchdog

/-- The command line, and which methods the radio has. -/
structure Settings where
  max_silence : Time := 20
  idle_rearm : Time := 1
  diag_after : Time := 300
  hasRearm : Bool := true
  hasHeal : Bool := true
  hasDiagnostics : Bool := true

inductive SilenceAction where
  | nothing
  | rearm
  deriving DecidableEq

def silenceAction (quiet_s max_silence : Time) : SilenceAction :=
  if max_silence ≤ 0 then .nothing else if max_silence < quiet_s then .rearm else .nothing

/-- What `radio.rearm()` does: strobe, leave a packet in the air alone, or raise. -/
inductive Strobe where
  | done
  | skipped
  | raised
  deriving DecidableEq

/-- One pass of the loop: the clock, whether a block came, and what the radio would do if asked. -/
structure Pass where
  now : Time
  got : Bool
  strobe : Strobe := .done
  /-- `answering` in the diagnostics, if it is there. -/
  answering : Option Bool := none
  configures : Bool := true
  /-- The clock behind a reset. -/
  healed : Time := now

inductive Event where
  | pass (p : Pass)
  /-- The decode thread has a packet. -/
  | packet (at_ : Time)

structure State where
  last_packet : Time
  last_block : Time
  last_action : Time
  last_diag : Time := 0
  rearms : ℕ := 0
  heals : ℕ := 0
  idle_rearms : ℕ := 0
  idle_skips : ℕ := 0

/-- Three looks at the clock before the loop: by `_Liveness`, by `last_action`, and by `last_block`
once the radio is open. -/
def fresh (packet₀ action₀ block₀ : Time) : State where
  last_packet := packet₀
  last_action := action₀
  last_block := block₀

inductive Action where
  | rearmed
  | healed
  /-- Re-arming failed and there is no reset. -/
  | failed
  deriving DecidableEq

structure Did where
  now : Time := 0
  block : Bool := false
  strobe : Option Strobe := none
  action : Option Action := none
  diag : Bool := false

section
variable (w : Settings)

def idleRearm : Time := if w.hasRearm then w.idle_rearm else 0

def strobe (s : State) (p : Pass) : State × Option Strobe :=
  if p.got then ({ s with last_block := p.now }, none)
  else if 0 < idleRearm w ∧ idleRearm w ≤ p.now - s.last_block then
    match p.strobe with
    | .done => ({ s with idle_rearms := s.idle_rearms + 1, last_block := p.now }, some .done)
    | .skipped => ({ s with idle_skips := s.idle_skips + 1 }, some .skipped)
    | .raised => ({ s with last_block := p.now }, some .raised)
  else (s, none)

/-- `heal_now`, whether the reset raises or not. -/
def healNow (s : State) (p : Pass) : State :=
  { s with heals := s.heals + 1, last_packet := p.healed }

def diagDue (s : State) (p : Pass) : Bool :=
  decide (w.diag_after ≤ p.now - s.last_packet) && decide (w.diag_after ≤ p.now - s.last_diag)

/-- The one step against silence, and a reset where it cannot help. -/
def act (s : State) (p : Pass) : State × Action :=
  let answering := if diagDue w s p && w.hasDiagnostics then p.answering else none
  let s := { s with
    last_action := p.now
    last_diag := if diagDue w s p then p.now else s.last_diag }
  if answering = some false ∧ w.hasHeal = true then (healNow s p, .healed)
  else if p.configures then ({ s with rearms := s.rearms + 1 }, .rearmed)
  else if w.hasHeal then (healNow s p, .healed)
  else (s, .failed)

/-- Whether the radio has been silent for too long, and left alone as long. -/
def actionDue (s : State) (p : Pass) : Prop :=
  silenceAction (p.now - s.last_packet) w.max_silence = .rearm ∧
    w.max_silence ≤ p.now - s.last_action

instance (s : State) (p : Pass) : Decidable (actionDue w s p) :=
  inferInstanceAs (Decidable (_ ∧ _))

def pass (s : State) (p : Pass) : State × Did :=
  let strobed := strobe w s p
  if actionDue w strobed.1 p then
    let acted := act w strobed.1 p
    (acted.1, { now := p.now, block := p.got, strobe := strobed.2, action := some acted.2
                diag := diagDue w strobed.1 p })
  else (strobed.1, { now := p.now, block := p.got, strobe := strobed.2 })

def step (s : State) : Event → State × Did
  | .pass p => pass w s p
  | .packet at_ => ({ s with last_packet := at_ }, {})

end

/-- The times of the re-arms and resets, those that failed included. -/
def actionTimes (os : List Did) : List Time := (os.filter (fun o => o.action.isSome)).map Did.now

def diagTimes (os : List Did) : List Time := (os.filter Did.diag).map Did.now

def Did.strobed (o : Did) : Bool := decide (o.strobe = some .done ∨ o.strobe = some .raised)

/-- The blocks and the strobes, with whether it was a strobe. -/
def stirs (os : List Did) : List (Time × Bool) :=
  (os.filter (fun o => o.block || o.strobed)).map (fun o => (o.now, o.strobed))

structure Paced (w : Settings) (action₀ block₀ : Time) (s : State) (os : List Did) : Prop where
  actions : (action₀ :: actionTimes os).Pairwise (fun a b => w.max_silence ≤ b - a)
  lastAction : ∀ t ∈ action₀ :: actionTimes os, t ≤ s.last_action
  diags : (0 :: diagTimes os).IsChain (fun a b => w.diag_after ≤ b - a)
  lastDiag : (0 :: diagTimes os).getLast (List.cons_ne_nil 0 _) = s.last_diag
  strobes : ((block₀, false) :: stirs os).IsChain
    (fun a b => b.2 = true → idleRearm w ≤ b.1 - a.1)
  lastBlock : (((block₀, false) :: stirs os).getLast (List.cons_ne_nil _ _)).1 = s.last_block
  rearms : s.rearms = os.countP (fun o => decide (o.action = some .rearmed))
  heals : s.heals = os.countP (fun o => decide (o.action = some .healed))
  idle_rearms : s.idle_rearms = os.countP (fun o => decide (o.strobe = some .done))
  idle_skips : s.idle_skips = os.countP (fun o => decide (o.strobe = some .skipped))

theorem actionTimes_concat (os : List Did) (o : Did) :
    actionTimes (os ++ [o]) = actionTimes os ++ if o.action.isSome then [o.now] else [] := by
  unfold actionTimes
  rw [List.filter_append, List.map_append, List.filter_singleton]
  cases o.action.isSome <;> rfl

theorem diagTimes_concat (os : List Did) (o : Did) :
    diagTimes (os ++ [o]) = diagTimes os ++ if o.diag then [o.now] else [] := by
  unfold diagTimes
  rw [List.filter_append, List.map_append, List.filter_singleton]
  cases o.diag <;> rfl

theorem stirs_concat (os : List Did) (o : Did) :
    stirs (os ++ [o]) = stirs os ++ if o.block || o.strobed then [(o.now, o.strobed)] else [] := by
  unfold stirs
  rw [List.filter_append, List.map_append, List.filter_singleton]
  cases o.block || o.strobed <;> rfl

theorem isChain_concat {α : Type*} {r : α → α → Prop} {l : List α} (hne : l ≠ [])
    (h : l.IsChain r) {a : α} (ha : r (l.getLast hne) a) : (l ++ [a]).IsChain r := by
  rw [List.isChain_append]
  refine ⟨h, List.isChain_singleton a, ?_⟩
  intro x hx y hy
  rw [List.getLast?_eq_some_getLast hne, Option.mem_some_iff] at hx
  rw [List.head?_cons, Option.mem_some_iff] at hy
  rw [← hx, ← hy]
  exact ha

theorem paced_fresh (w : Settings) (packet₀ action₀ block₀ : Time) :
    Paced w action₀ block₀ (fresh packet₀ action₀ block₀) [] where
  actions := List.pairwise_singleton _ action₀
  lastAction := fun _ ht => (List.mem_singleton.mp ht).le
  diags := List.isChain_singleton 0
  lastDiag := rfl
  strobes := List.isChain_singleton _
  lastBlock := rfl
  rearms := rfl
  heals := rfl
  idle_rearms := rfl
  idle_skips := rfl

section
variable {w : Settings} {action₀ block₀ : Time} {s : State} {os : List Did}

theorem Paced.idle {s' : State} {o : Did} (hs : Paced w action₀ block₀ s os)
    (haction : o.action = none) (hdiag : o.diag = false) (hlastAction : s'.last_action = s.last_action)
    (hlastDiag : s'.last_diag = s.last_diag)
    (hlastBlock : s'.last_block = if o.block || o.strobed then o.now else s.last_block)
    (hspaced : o.strobed = true → idleRearm w ≤ o.now - s.last_block)
    (hrearms : s'.rearms = s.rearms) (hheals : s'.heals = s.heals)
    (hidle : s'.idle_rearms = s.idle_rearms + if o.strobe = some .done then 1 else 0)
    (hskips : s'.idle_skips = s.idle_skips + if o.strobe = some .skipped then 1 else 0) :
    Paced w action₀ block₀ s' (os ++ [o]) := by
  have hactions : actionTimes (os ++ [o]) = actionTimes os := by
    simp [actionTimes_concat, haction]
  have hdiags : diagTimes (os ++ [o]) = diagTimes os := by simp [diagTimes_concat, hdiag]
  have hstirs : (block₀, false) :: stirs (os ++ [o]) = ((block₀, false) :: stirs os) ++
      if o.block || o.strobed then [(o.now, o.strobed)] else [] := by
    rw [stirs_concat]
    rfl
  constructor
  · rw [hactions]
    exact hs.actions
  · rw [hactions, hlastAction]
    exact hs.lastAction
  · rw [hdiags]
    exact hs.diags
  · simp only [hdiags, hlastDiag]
    exact hs.lastDiag
  · rw [hstirs]
    split_ifs
    · refine isChain_concat (List.cons_ne_nil _ _) hs.strobes ?_
      intro hstrobed
      rw [hs.lastBlock]
      exact hspaced hstrobed
    · rw [List.append_nil]
      exact hs.strobes
  · simp only [hstirs, hlastBlock]
    split_ifs
    · simp
    · simp only [List.append_nil]
      exact hs.lastBlock
  · rw [hrearms, List.countP_append, hs.rearms]
    simp [haction]
  · rw [hheals, List.countP_append, hs.heals]
    simp [haction]
  · rw [hidle, List.countP_append, hs.idle_rearms, List.countP_singleton]
    simp
  · rw [hskips, List.countP_append, hs.idle_skips, List.countP_singleton]
    simp

theorem paced_strobe (hs : Paced w action₀ block₀ s os) (p : Pass) :
    Paced w action₀ block₀ (strobe w s p).1
      (os ++ [{ now := p.now, block := p.got, strobe := (strobe w s p).2 }]) := by
  unfold strobe
  cases hgot : p.got with
  | true => exact hs.idle rfl rfl rfl rfl rfl (fun h => by cases h) rfl rfl rfl rfl
  | false =>
      by_cases hdue : 0 < idleRearm w ∧ idleRearm w ≤ p.now - s.last_block
      · simp only [Bool.false_eq_true, if_false, if_pos hdue]
        cases p.strobe with
        | done => exact hs.idle rfl rfl rfl rfl rfl (fun _ => hdue.2) rfl rfl rfl rfl
        | skipped => exact hs.idle rfl rfl rfl rfl rfl (fun h => by cases h) rfl rfl rfl rfl
        | raised => exact hs.idle rfl rfl rfl rfl rfl (fun _ => hdue.2) rfl rfl rfl rfl
      · simp only [Bool.false_eq_true, if_false, if_neg hdue]
        exact hs.idle rfl rfl rfl rfl rfl (fun h => by cases h) rfl rfl rfl rfl

/-- What a step against silence sets and counts. -/
theorem act_spec (s : State) (p : Pass) :
    (act w s p).1.last_action = p.now ∧
      (act w s p).1.last_diag = (if diagDue w s p then p.now else s.last_diag) ∧
      (act w s p).1.last_block = s.last_block ∧
      (act w s p).1.idle_rearms = s.idle_rearms ∧ (act w s p).1.idle_skips = s.idle_skips ∧
      (act w s p).1.rearms = s.rearms + (if (act w s p).2 = .rearmed then 1 else 0) ∧
      (act w s p).1.heals = s.heals + (if (act w s p).2 = .healed then 1 else 0) ∧
      ((act w s p).2 = .healed → w.hasHeal = true ∧
        (diagDue w s p = true ∧ p.answering = some false ∨ p.configures = false)) := by
  unfold act
  dsimp only
  generalize hasked : (if diagDue w s p && w.hasDiagnostics then p.answering else none) = answering
  by_cases hdead : answering = some false ∧ w.hasHeal = true
  · rw [if_pos hdead]
    refine ⟨rfl, rfl, rfl, rfl, rfl, rfl, rfl, fun _ => ⟨hdead.2, .inl ?_⟩⟩
    rw [hdead.1] at hasked
    split_ifs at hasked with hdiag
    exact ⟨(Bool.and_eq_true_iff.mp hdiag).1, hasked⟩
  · rw [if_neg hdead]
    by_cases hconfigures : p.configures = true
    · rw [if_pos hconfigures]
      exact ⟨rfl, rfl, rfl, rfl, rfl, rfl, rfl, fun h => by cases h⟩
    · rw [if_neg hconfigures]
      by_cases hheal : w.hasHeal = true
      · rw [if_pos hheal]
        exact ⟨rfl, rfl, rfl, rfl, rfl, rfl, rfl,
          fun _ => ⟨hheal, .inr (Bool.eq_false_iff.mpr hconfigures)⟩⟩
      · rw [if_neg hheal]
        exact ⟨rfl, rfl, rfl, rfl, rfl, rfl, rfl, fun h => by cases h⟩

theorem paced_act {o : Did} (hs : Paced w action₀ block₀ s (os ++ [o]))
    (haction : o.action = none) (hdiag : o.diag = false) {p : Pass} (hnow : o.now = p.now) (hdue : actionDue w s p) :
    Paced w action₀ block₀ (act w s p).1
      (os ++ [{ o with action := some (act w s p).2, diag := diagDue w s p }]) := by
  obtain ⟨hlastAction, hlastDiag, hlastBlock, hidle, hskips, hrearms, hheals, _⟩ :=
    act_spec (w := w) s p
  set a := (act w s p).2
  set d := diagDue w s p with hd
  have hold : actionTimes (os ++ [o]) = actionTimes os ∧ diagTimes (os ++ [o]) = diagTimes os := by
    simp [actionTimes_concat, diagTimes_concat, haction, hdiag]
  have hactions : action₀ :: actionTimes (os ++ [{ o with action := some a, diag := d }]) =
      (action₀ :: actionTimes (os ++ [o])) ++ [p.now] := by
    rw [hold.1, actionTimes_concat, ← hnow]
    rfl
  have hdiags : 0 :: diagTimes (os ++ [{ o with action := some a, diag := d }]) =
      (0 :: diagTimes (os ++ [o])) ++ if d then [p.now] else [] := by
    rw [hold.2, diagTimes_concat, ← hnow]
    rfl
  have hstirs : stirs (os ++ [{ o with action := some a, diag := d }]) = stirs (os ++ [o]) := by
    rw [stirs_concat, stirs_concat]
    rfl
  have hsilent : 0 < w.max_silence := by
    have hrearm := hdue.1
    unfold silenceAction at hrearm
    split_ifs at hrearm with hoff
    exact not_le.mp hoff
  constructor
  · rw [hactions, List.pairwise_append]
    refine ⟨hs.actions, List.pairwise_singleton _ _, ?_⟩
    intro t ht u hu
    rw [List.mem_singleton.mp hu]
    have hle := hs.lastAction t ht
    have hgap := hdue.2
    linarith
  · rw [hactions, hlastAction]
    intro t ht
    obtain hbefore | hthis := List.mem_append.mp ht
    · have hle := hs.lastAction t hbefore
      have hgap := hdue.2
      linarith
    · exact (List.mem_singleton.mp hthis).le
  · rw [hdiags]
    cases hd' : d with
    | false => simpa using hs.diags
    | true =>
        refine isChain_concat (List.cons_ne_nil _ _) hs.diags ?_
        rw [hs.lastDiag]
        rw [hd', eq_comm, diagDue, Bool.and_eq_true, decide_eq_true_iff, decide_eq_true_iff] at hd
        exact hd.2
  · simp only [hdiags, hlastDiag]
    split_ifs
    · simp
    · simpa using hs.lastDiag
  · rw [hstirs]
    exact hs.strobes
  · simp only [hstirs, hlastBlock]
    exact hs.lastBlock
  · have hcount := hs.rearms
    rw [List.countP_append, List.countP_singleton] at hcount ⊢
    simp only [haction] at hcount
    rw [hrearms, hcount]
    simp
  · have hcount := hs.heals
    rw [List.countP_append, List.countP_singleton] at hcount ⊢
    simp only [haction] at hcount
    rw [hheals, hcount]
    simp
  · rw [hidle, hs.idle_rearms, List.countP_append, List.countP_append, List.countP_singleton,
      List.countP_singleton]
  · rw [hskips, hs.idle_skips, List.countP_append, List.countP_append, List.countP_singleton,
      List.countP_singleton]

theorem paced_step (hs : Paced w action₀ block₀ s os) (e : Event) :
    Paced w action₀ block₀ (step w s e).1 (os ++ [(step w s e).2]) := by
  cases e with
  | packet at_ => exact hs.idle rfl rfl rfl rfl rfl (fun h => by cases h) rfl rfl rfl rfl
  | pass p =>
      change Paced w action₀ block₀ (pass w s p).1 (os ++ [(pass w s p).2])
      have hstrobed := paced_strobe hs p
      unfold pass
      by_cases hdue : actionDue w (strobe w s p).1 p
      · simp only [if_pos hdue]
        exact paced_act hstrobed rfl rfl rfl hdue
      · simp only [if_neg hdue]
        exact hstrobed

theorem strobe_leaves (s : State) (p : Pass) :
    (strobe w s p).1.last_packet = s.last_packet ∧
      (strobe w s p).1.last_action = s.last_action := by
  unfold strobe
  split
  · exact ⟨rfl, rfl⟩
  · split
    · cases p.strobe <;> exact ⟨rfl, rfl⟩
    · exact ⟨rfl, rfl⟩

/-- Behind a pass the radio has been busy, strobed or found in a packet. -/
theorem strobe_recent (s : State) (p : Pass) (hidle : 0 < idleRearm w) :
    p.now - (strobe w s p).1.last_block < idleRearm w ∨ (strobe w s p).2 = some .skipped := by
  have hnow : p.now - p.now < idleRearm w := by rwa [sub_self]
  unfold strobe
  split
  · exact .inl hnow
  · by_cases hdue : 0 < idleRearm w ∧ idleRearm w ≤ p.now - s.last_block
    · rw [if_pos hdue]
      cases p.strobe with
      | done => exact .inl hnow
      | skipped => exact .inr rfl
      | raised => exact .inl hnow
    · rw [if_neg hdue]
      exact .inl (not_le.mp (fun hle => hdue ⟨hidle, hle⟩))

/-- A pass leaves no silence behind that is longer than allowed, unless it or one not long before
it did something about it. -/
theorem pass_recent (s : State) (p : Pass) (hon : 0 < w.max_silence) :
    p.now - (pass w s p).1.last_packet ≤ w.max_silence ∨
      p.now - (pass w s p).1.last_action < w.max_silence := by
  unfold pass
  by_cases hdue : actionDue w (strobe w s p).1 p
  · simp only [if_pos hdue]
    refine .inr ?_
    rw [(act_spec (strobe w s p).1 p).1, sub_self]
    exact hon
  · simp only [if_neg hdue]
    by_contra hneither
    rw [not_or, not_le, not_lt] at hneither
    refine hdue ⟨?_, hneither.2⟩
    unfold silenceAction
    rw [if_neg (not_le.mpr hon), if_pos hneither.1]

/-- What a pass does about silence, and when. -/
theorem pass_action {s : State} {p : Pass} {a : Action} (h : (pass w s p).2.action = some a) :
    w.max_silence < p.now - s.last_packet ∧
      (a = .healed → w.hasHeal = true ∧
        ((pass w s p).2.diag = true ∧ p.answering = some false ∨ p.configures = false)) := by
  unfold pass at h ⊢
  by_cases hdue : actionDue w (strobe w s p).1 p
  · simp only [if_pos hdue, Option.some.injEq] at h ⊢
    have hrearm := hdue.1
    unfold silenceAction at hrearm
    split_ifs at hrearm with hoff hquiet
    rw [(strobe_leaves s p).1] at hquiet
    refine ⟨hquiet, ?_⟩
    rintro rfl
    exact (act_spec (strobe w s p).1 p).2.2.2.2.2.2.2 h
  · simp only [if_neg hdue] at h
    cases h

/-- In every run, however the passes of the loop and the packets of the decode thread come: re-arms
and resets are at least `max_silence` apart, the diagnostics of the watchdog at least `diag_after`,
and a strobe comes at least `idle_rearm` behind the block or strobe before it. Behind each pass the
last packet or the last step against silence is no older than `max_silence`, and the last block or
strobe no older than `idle_rearm` unless the radio was in a packet. Only a silence longer than
`max_silence` is acted on, with a reset only where the radio does not answer or cannot be re-armed. -/
theorem watchdog_paced (w : Settings) (packet₀ action₀ block₀ : Time) (events : List Event)
    (p : Pass) :
    let r := Machine.run (step w) (fresh packet₀ action₀ block₀) events
    let last := pass w r.1 p
    Paced w action₀ block₀ last.1 (r.2 ++ [last.2]) ∧
      (0 < w.max_silence → p.now - last.1.last_packet ≤ w.max_silence ∨
        p.now - last.1.last_action < w.max_silence) ∧
      (0 < idleRearm w → p.now - last.1.last_block < idleRearm w ∨
        last.2.strobe = some .skipped) ∧
      ∀ a, last.2.action = some a → w.max_silence < p.now - r.1.last_packet ∧
        (a = .healed → w.hasHeal = true ∧
          (last.2.diag = true ∧ p.answering = some false ∨ p.configures = false)) := by
  intro r last
  have hpaced : Paced w action₀ block₀ r.1 r.2 :=
    Machine.history (P := Paced w action₀ block₀) (fun _ _ e h => paced_step h e)
      (paced_fresh w packet₀ action₀ block₀) events
  refine ⟨paced_step hpaced (.pass p), pass_recent r.1 p, ?_, fun a ha => pass_action ha⟩
  intro hidle
  have hrecent := strobe_recent r.1 p hidle
  simp only [last, pass]
  by_cases hdue : actionDue w (strobe w r.1 p).1 p
  · simp only [if_pos hdue]
    rwa [(act_spec (strobe w r.1 p).1 p).2.2.1]
  · simp only [if_neg hdue]
    exact hrecent

end

end InsteonRf.Watchdog
