import InsteonRf.Bucket
import InsteonRf.Lib.Machine

/-!
# Fusing sightings into events

Sightings are filed in open buckets, found by message key or by bit similarity.
Buckets that have closed, or that a later transmission of the same bytes has
ended, are built into events; repaired copies are folded into their message's
bucket on the way out.
-/
namespace InsteonRf
open OrderedDict Selection

/-- What is remembered of an emitted key: when it closed, its repeat number and
the on-air interval of its event. -/
structure ClosedKey where
  closedAt : Time
  repeat_index : ℕ
  first : Time
  last : Time
  deriving DecidableEq

structure Fusion where
  cfg : FusionConfig
  skew : Option ClockSkew
  /-- Open buckets under the key they are filed by. -/
  openBuckets : Dict Key Bucket
  /-- Buckets a newer transmission of the same key has already ended. -/
  ready : List Bucket
  closed : Dict Key ClosedKey
  late : Dict String ℕ
  folded : ℕ
  lag : Dict String (List Time)

/-- An event together with the bucket it was built from; the source returns the
event alone. -/
structure Emission where
  bucket : Bucket
  event : FusedEvent

namespace Fusion

def fresh (cfg : FusionConfig) (skew : Option ClockSkew) : Fusion where
  cfg := cfg
  skew := skew
  openBuckets := Dict.empty
  ready := []
  closed := Dict.empty
  late := Dict.empty
  folded := 0
  lag := Dict.empty

/-- The sighting with its receiver's clock offset removed. -/
def correct (f : Fusion) (s : Sighting) : Sighting :=
  match f.skew with
  | none => s
  | some k => { s with raw_when := some s.when, timestamp := some (k.correct s.receiver s.when) }

/-- Delay statistics, kept for the last 500 sightings of a receiver. -/
def noteLag (f : Fusion) (s : Sighting) (arrived : Option Time) : Fusion :=
  match arrived with
  | none => f
  | some t =>
      let delays := ClockSkew.push 500 ((f.lag.get s.receiver).getD []) (t - s.when)
      { f with lag := f.lag.set s.receiver delays }

/-- The event of this key has been emitted and the copy belongs to it. -/
def isStraggler (f : Fusion) (key : Key) (s : Sighting) : Bool :=
  s.good && match f.closed.get key with
    | none => false
    | some seen => decide (seen.first - f.cfg.window_s ≤ s.when ∧ s.when ≤ seen.last + f.cfg.window_s)

/-- One bucket of the search: the best slot so far with its bit distance. -/
def nearer (cfg : FusionConfig) (s : Sighting) (best : Option (Key × Bucket) × ℕ)
    (e : Key × Bucket) : Option (Key × Bucket) × ℕ :=
  -- Two confirmed packets: trust their bytes.
  if s.good && e.2.hasGood then best
  else if ¬ e.2.accepts cfg s.when then best
  else match hamming s.bits e.2.refBits maxDisagreements with
    | none => best
    | some d => if d ≤ maxDisagreements ∧ d < best.2 then (some e, d) else best

/-- The slot and bucket whose bits are closest, if close enough. -/
def nearest (f : Fusion) (s : Sighting) : Option (Key × Bucket) :=
  (f.openBuckets.items.foldl (nearer f.cfg s) (none, maxDisagreements + 1)).1

def group (f : Fusion) (key : Key) (s : Sighting) : Fusion :=
  match if f.cfg.allow_combine then f.nearest s else none with
  | some (slot, near) => { f with openBuckets := f.openBuckets.set slot (near.add s) }
  | none => { f with openBuckets := f.openBuckets.set key (Bucket.new key s) }

def retire (f : Fusion) (key : Key) (b : Bucket) : Fusion :=
  { f with openBuckets := f.openBuckets.erase key, ready := f.ready ++ [b] }

def countLate (f : Fusion) (s : Sighting) : Fusion := { f with late := f.late.bump s.receiver }

def place (f : Fusion) (s : Sighting) : Fusion :=
  match f.openBuckets.get s.key with
  | some bucket =>
      if bucket.accepts f.cfg s.when then
        { f with openBuckets := f.openBuckets.set s.key (bucket.add s) }
      -- Same bytes past that bucket's window: a retransmission, not a copy.
      else (f.retire s.key bucket).group s.key s
  | none => if f.isStraggler s.key s then f.countLate s else f.group s.key s

/-- The open bucket a sighting joins by its key. -/
def filing (f : Fusion) (s : Sighting) : Option Bucket :=
  (f.openBuckets.get s.key).filter (fun b => b.accepts f.cfg s.when)

def add (f : Fusion) (s : Sighting) (arrived : Option Time) : Fusion :=
  (f.noteLag (f.correct s) arrived).place (f.correct s)

def forgetOld (f : Fusion) (now : Time) : Fusion :=
  { f with closed := f.closed.filter (fun e => !decide (f.cfg.repeat_memory_s < now - e.2.closedAt)) }

/-- Number the event, remember its key, and learn the clocks from it. -/
def finish (f : Fusion) (b : Bucket) (now : Time) (event : FusedEvent) : Fusion × Emission :=
  let event := if event.combined then { event with key := messageKey event.packet } else event
  let repeat_index := match f.closed.get event.key with
    | none => 0
    | some seen => seen.repeat_index + 1
  let event := { event with repeat_index }
  let closed := f.closed.set event.key ⟨now, repeat_index, event.first_seen, event.last_seen⟩
  let skew := if event.combined then f.skew else f.skew.map (fun k => k.learn b.origins)
  ({ f with closed, skew }, ⟨b, event⟩)

/-- Where a repaired copy goes instead of being an event of its own. -/
inductive Home where
  /-- The pending buckets with the copy folded into one of them. -/
  | pending (buckets : List Bucket)
  | live (bucket : Bucket)
  | late
  | none

def home (f : Fusion) (pending : List Bucket) (b : Bucket) (key : Key) : Home :=
  match updateFirst (fun g => decide (g.key = key) && g.accepts f.cfg b.opened)
      (fun g => g.addAll b.sightings) pending with
  | some pending => .pending pending
  | none =>
      match (f.openBuckets.get key).filter (fun g => g.accepts f.cfg b.opened) with
      | some g => .live g
      | none =>
          match f.closed.get key with
          | some seen =>
              if seen.first - f.cfg.window_s ≤ b.opened ∧ b.opened ≤ seen.last + f.cfg.window_s then .late
              else .none
          | none => .none

/-- The loop over buckets without a verified copy: the state, the pending buckets
and the events so far. -/
abbrev EmitState := Fusion × List Bucket × List Emission

def emitDamaged (now : Time) (st : EmitState) (b : Bucket) : EmitState :=
  let (f, pending, out) := st
  let event := b.build f.cfg.allow_combine
  let alone : EmitState := ((f.finish b now event).1, pending, out ++ [(f.finish b now event).2])
  if event.combined then
    match f.home pending b (messageKey event.packet) with
    | .pending pending => ({ f with folded := f.folded + 1 }, pending, out)
    | .live g =>
        ({ f with
          openBuckets := f.openBuckets.set (messageKey event.packet) (g.addAll b.sightings)
          folded := f.folded + 1 }, pending, out)
    | .late => ({ b.sightings.foldl countLate f with folded := f.folded + 1 }, pending, out)
    | .none => alone
  else alone

def emitPending (now : Time) (st : Fusion × List Emission) (b : Bucket) : Fusion × List Emission :=
  let (f, out) := st
  let (f, e) := f.finish b now (b.build f.cfg.allow_combine)
  (f, out ++ [e])

/-- Build events from closed buckets, folding repaired copies home. -/
def emit (f : Fusion) (done : List Bucket) (now : Time) : Fusion × List Emission :=
  let done := sortOn Bucket.opened done
  let damaged := done.filter (fun b => !b.hasGood)
  let (f, pending, out) := damaged.foldl (emitDamaged now) (f, done.filter Bucket.hasGood, [])
  let (f, out) := pending.foldl (emitPending now) (f, out)
  (f, sortOn (fun e : Emission => e.event.first_seen) out)

def popReady (f : Fusion) (now : Time) : Fusion × List Emission :=
  let f := f.forgetOld now
  let closing := fun e : Key × Bucket => e.2.isClosed f.cfg (now - f.cfg.lateness_s)
  let done := f.ready ++ (f.openBuckets.filter closing).values
  emit { f with openBuckets := f.openBuckets.filter (fun e => !closing e), ready := [] } done now

def flush (f : Fusion) (now : Time) : Fusion × List Emission :=
  emit { f with openBuckets := Dict.empty, ready := [] } (f.ready ++ f.openBuckets.values) now

inductive Op where
  | add (s : Sighting) (arrived : Option Time)
  | popReady (now : Time)
  | flush (now : Time)

def step (f : Fusion) : Op → Fusion × List Emission
  | .add s arrived => (f.add s arrived, [])
  | .popReady now => f.popReady now
  | .flush now => f.flush now

def run (f : Fusion) (ops : List Op) : Fusion × List Emission :=
  ((Machine.run step f ops).1, (Machine.run step f ops).2.flatten)

def buckets (f : Fusion) : List Bucket := f.openBuckets.values ++ f.ready

@[simp] theorem run_nil (f : Fusion) : f.run [] = (f, []) := rfl

theorem run_cons (f : Fusion) (op : Op) (ops : List Op) :
    f.run (op :: ops) =
      (((f.step op).1.run ops).1, (f.step op).2 ++ ((f.step op).1.run ops).2) := rfl

theorem run_append (f : Fusion) (ops ops' : List Op) :
    f.run (ops ++ ops') = (((f.run ops).1.run ops').1, (f.run ops).2 ++ ((f.run ops).1.run ops').2) := by
  simp [run, Machine.run_append]

theorem correct_receiver (f : Fusion) (s : Sighting) : (f.correct s).receiver = s.receiver := by
  rw [correct]
  split <;> rfl

theorem filing_eq_some {f : Fusion} {s : Sighting} {b : Bucket} :
    f.filing s = some b ↔ f.openBuckets.get s.key = some b ∧ b.accepts f.cfg s.when = true :=
  Option.filter_eq_some_iff

theorem correct_of_skew_none {f : Fusion} (h : f.skew = none) (s : Sighting) : f.correct s = s := by
  rw [correct, h]

theorem noteLag_fields (f : Fusion) (s : Sighting) (arrived : Option Time) :
    (f.noteLag s arrived).cfg = f.cfg ∧ (f.noteLag s arrived).skew = f.skew ∧
      (f.noteLag s arrived).openBuckets = f.openBuckets ∧ (f.noteLag s arrived).ready = f.ready ∧
      (f.noteLag s arrived).closed = f.closed ∧ (f.noteLag s arrived).late = f.late := by
  cases arrived <;> exact ⟨rfl, rfl, rfl, rfl, rfl, rfl⟩

/-- The bucket found by similarity is an open one that accepts the sighting, and
not both it and the sighting are confirmed. -/
theorem nearest_spec {f : Fusion} {s : Sighting} {slot : Key} {b : Bucket}
    (h : f.nearest s = some (slot, b)) :
    f.openBuckets.get slot = some b ∧ b.accepts f.cfg s.when = true ∧
      (s.good = true → b.hasGood = false) := by
  have hfold : ∀ (l : List (Key × Bucket)) (best : Option (Key × Bucket) × ℕ) (e : Key × Bucket),
      (l.foldl (nearer f.cfg s) best).1 = some e →
      best.1 = some e ∨ (e ∈ l ∧ e.2.accepts f.cfg s.when = true ∧
        (s.good = true → e.2.hasGood = false)) := by
    intro l
    induction l with
    | nil => exact fun best e he => Or.inl he
    | cons a l ih =>
        intro best e he
        rcases ih (nearer f.cfg s best a) e he with hbest | ⟨hmem, hrest⟩
        · by_cases hboth : (s.good && a.2.hasGood) = true
          · rw [nearer, if_pos hboth] at hbest
            exact Or.inl hbest
          by_cases hacc : a.2.accepts f.cfg s.when = true
          · have hea : best.1 = some e ∨ a = e := by
              rw [nearer, if_neg hboth, if_neg (by simpa using hacc)] at hbest
              split at hbest
              · exact Or.inl hbest
              · split_ifs at hbest
                · exact Or.inr (Option.some.inj hbest)
                · exact Or.inl hbest
            rcases hea with hold | rfl
            · exact Or.inl hold
            · refine Or.inr ⟨by simp, hacc, ?_⟩
              intro hs
              simpa [hs] using hboth
          · rw [nearer, if_neg hboth, if_pos (by simpa using hacc)] at hbest
            exact Or.inl hbest
        · exact Or.inr ⟨List.mem_cons_of_mem _ hmem, hrest⟩
  rcases hfold _ _ _ h with hnone | ⟨hmem, hacc, hgood⟩
  · simp at hnone
  · exact ⟨Dict.get_eq_some_iff.mpr hmem, hacc, hgood⟩

theorem group_cases (f : Fusion) (key : Key) (s : Sighting) :
    (∃ slot b, f.cfg.allow_combine = true ∧ f.nearest s = some (slot, b) ∧
      f.group key s = { f with openBuckets := f.openBuckets.set slot (b.add s) }) ∨
    ((f.cfg.allow_combine = true → f.nearest s = none) ∧
      f.group key s = { f with openBuckets := f.openBuckets.set key (Bucket.new key s) }) := by
  by_cases hallow : f.cfg.allow_combine = true
  · cases hn : f.nearest s with
    | none => exact Or.inr ⟨fun _ => rfl, by simp [group, hallow, hn]⟩
    | some e => exact Or.inl ⟨e.1, e.2, hallow, rfl, by simp [group, hallow, hn]⟩
  · exact Or.inr ⟨fun h => absurd h hallow, by simp [group, hallow]⟩

/-- The four things that become of a sighting: it joins the bucket under its key, ends
that bucket, is late, or finds no bucket under its key. -/
theorem place_cases (f : Fusion) (s : Sighting) :
    (∃ b, f.filing s = some b ∧
      f.place s = { f with openBuckets := f.openBuckets.set s.key (b.add s) }) ∨
    (∃ b, f.openBuckets.get s.key = some b ∧ b.accepts f.cfg s.when = false ∧
      f.place s = (f.retire s.key b).group s.key s) ∨
    (f.openBuckets.get s.key = none ∧ f.isStraggler s.key s = true ∧
      f.place s = f.countLate s) ∨
    (f.openBuckets.get s.key = none ∧ f.isStraggler s.key s = false ∧
      f.place s = f.group s.key s) := by
  cases hget : f.openBuckets.get s.key with
  | some b =>
      by_cases hacc : b.accepts f.cfg s.when = true
      · exact Or.inl ⟨b, filing_eq_some.mpr ⟨hget, hacc⟩, by simp [place, hget, hacc]⟩
      · exact Or.inr (Or.inl ⟨b, rfl, by simpa using hacc, by simp [place, hget, hacc]⟩)
  | none =>
      by_cases hlate : f.isStraggler s.key s = true
      · exact Or.inr (Or.inr (Or.inl ⟨rfl, hlate, by simp [place, hget, hlate]⟩))
      · exact Or.inr (Or.inr (Or.inr ⟨rfl, by simpa using hlate, by simp [place, hget, hlate]⟩))

def commandCopy (cmd2 crc : Byte) (receiver : String) (rssi_dbm : ℚ) (timestamp : Time) :
    Sighting :=
  Sighting.framed 0x0F#8 [0x07#8, 0x93#8, 0x2B#8, 0x52#8, 0x4E#8, 0x29#8, 0x11#8, cmd2, crc,
    0x00#8, 0x00#8, 0xAA#8] receiver (some rssi_dbm) timestamp

end Fusion

end InsteonRf
