import InsteonRf.MqttCapture
import InsteonRf.Lib.Adjacent
import InsteonRf.Lib.Machine

/-!
# The receiver of the boards' captures

Each message is parsed, its sequence number compared with the one before from the same board, and
the capture put into a queue of limited size. What is refused, by the parser or by the queue, is
counted as dropped.
-/
namespace InsteonRf.Mqtt
open OrderedDict

structure MqttReceiver where
  maxsize : ℕ
  q : List Capture := []
  last_seq : Dict String ℤ := Dict.empty
  received : ℕ := 0
  dropped : ℕ := 0
  gaps : ℕ := 0

inductive Delivery where
  | message (topic : String) (payload : ByteArray) (now : Time)
  | next

/-- What one delivery shows: the capture that was parsed and whether it was queued, a capture
handed on, or an exception out of the callback. -/
structure Shown where
  parsed : Option Capture := none
  queued : Bool := false
  taken : Option Capture := none
  raised : Bool := false

/-- Whether a number leaves some out behind the one before. -/
def Skips (prev seq : ℤ) : Prop := seq > prev + 1

instance : DecidableRel Skips := fun prev seq => inferInstanceAs (Decidable (seq > prev + 1))

namespace MqttReceiver

def noteSeq (s : MqttReceiver) (cap : Capture) : MqttReceiver :=
  match cap.seq with
  | none => s
  | some seq =>
      { s with
        gaps := if ∃ prev ∈ s.last_seq.get cap.receiver, Skips prev seq then s.gaps + 1 else s.gaps
        last_seq := s.last_seq.set cap.receiver seq }

/-- `queue.Queue.full`; a size of 0 is no limit. -/
def full (s : MqttReceiver) : Bool := decide (0 < s.maxsize) && decide (s.maxsize ≤ s.q.length)

def putNowait (s : MqttReceiver) (cap : Capture) : MqttReceiver × Shown :=
  if s.full then ({ s with dropped := s.dropped + 1 }, { parsed := some cap })
  else ({ s with q := s.q ++ [cap], received := s.received + 1 },
    { parsed := some cap, queued := true })

section
variable (b64decode : String → Option (List Byte)) (loads : String → Option Json)
  (decimal : Char → Option ℕ)

def onMessage (s : MqttReceiver) (topic : String) (payload : ByteArray) (now : Time) :
    MqttReceiver × Shown :=
  match fromPayload b64decode loads decimal topic payload now with
  | .error _ => (s, { raised := true })
  | .ok none => ({ s with dropped := s.dropped + 1 }, {})
  | .ok (some cap) => (s.noteSeq cap).putNowait cap

def nextCapture (s : MqttReceiver) : MqttReceiver × Shown :=
  match s.q with
  | [] => (s, {})
  | cap :: q => ({ s with q }, { taken := some cap })

def step (s : MqttReceiver) : Delivery → MqttReceiver × Shown
  | .message topic payload now => s.onMessage b64decode loads decimal topic payload now
  | .next => s.nextCapture

end

end MqttReceiver

section
variable (b64decode : String → Option (List Byte)) (loads : String → Option Json)
  (decimal : Char → Option ℕ)

def captureOf : Delivery → Option Capture
  | .message topic payload now =>
      match fromPayload b64decode loads decimal topic payload now with
      | .ok cap => cap
      | .error _ => none
  | .next => none

def isMessage : Delivery → Bool
  | .message .. => true
  | .next => false

def arrived (ds : List Delivery) : List Capture := ds.filterMap (captureOf b64decode loads decimal)

end

def seqsOf (name : String) (caps : List Capture) : List ℤ :=
  (caps.filter (fun c => decide (c.receiver = name))).filterMap Capture.seq

def skipsOf (names : List String) (caps : List Capture) : ℕ :=
  (names.map (fun n => Adjacent.count Skips (seqsOf n caps))).sum

section
variable {b64decode : String → Option (List Byte)} {loads : String → Option Json}
  {decimal : Char → Option ℕ} {s : MqttReceiver}

@[simp] theorem seqsOf_nil (name : String) : seqsOf name [] = [] := rfl

theorem seqsOf_concat (name : String) (caps : List Capture) (cap : Capture) :
    seqsOf name (caps ++ [cap]) =
      seqsOf name caps ++ (if cap.receiver = name then cap.seq.toList else []) := by
  rw [seqsOf, List.filter_append, List.filterMap_append, ← seqsOf]
  by_cases hname : cap.receiver = name
  · cases hseq : cap.seq <;> simp [hname, hseq]
  · simp [hname]

/-- Among boards that are all different, a capture adds the gap it makes for its own. -/
theorem skipsOf_concat {names : List String} (hnodup : names.Nodup) {cap : Capture}
    (hmem : cap.receiver ∈ names) (caps : List Capture) :
    skipsOf names (caps ++ [cap]) = skipsOf names caps +
      (match cap.seq with
        | none => 0
        | some seq =>
            if ∃ prev ∈ (seqsOf cap.receiver caps).getLast?, Skips prev seq then 1 else 0) := by
  have hown : Adjacent.count Skips (seqsOf cap.receiver (caps ++ [cap])) =
      Adjacent.count Skips (seqsOf cap.receiver caps) +
        (match cap.seq with
          | none => 0
          | some seq =>
              if ∃ prev ∈ (seqsOf cap.receiver caps).getLast?, Skips prev seq then 1 else 0) := by
    rw [seqsOf_concat, if_pos rfl]
    cases cap.seq with
    | none => simp
    | some seq => exact Adjacent.count_concat Skips _ seq
  have hother : ∀ n, n ≠ cap.receiver → seqsOf n (caps ++ [cap]) = seqsOf n caps := by
    intro n hn
    rw [seqsOf_concat, if_neg (Ne.symm hn), List.append_nil]
  obtain ⟨u, v, rfl⟩ := List.append_of_mem hmem
  have hne : ∀ n ∈ u ++ v, n ≠ cap.receiver := by
    rintro n hn rfl
    exact (List.nodup_middle.mp hnodup).notMem hn
  have hsame : ∀ w : List String, (∀ n ∈ w, n ≠ cap.receiver) →
      w.map (fun n => Adjacent.count Skips (seqsOf n (caps ++ [cap]))) =
        w.map (fun n => Adjacent.count Skips (seqsOf n caps)) :=
    fun w hw => List.map_congr_left (fun n hn => by rw [hother n (hw n hn)])
  simp only [skipsOf, List.map_append, List.map_cons, List.sum_append, List.sum_cons, hown,
    hsame u (fun n hn => hne n (List.mem_append_left v hn)),
    hsame v (fun n hn => hne n (List.mem_append_right u hn))]
  omega

/-- What the receiver has made of its messages: the captures handed on and queued are those that
were queued, in order, and the last numbers and the gaps are those of the captures parsed. -/
structure Accounted (maxsize : ℕ) (s : MqttReceiver) (os : List Shown) : Prop where
  size : s.maxsize = maxsize
  queued : os.filterMap Shown.taken ++ s.q = (os.filter Shown.queued).filterMap Shown.parsed
  received : s.received = (os.filterMap Shown.taken ++ s.q).length
  bound : 0 < maxsize → s.q.length ≤ maxsize
  last : ∀ name, s.last_seq.get name = (seqsOf name (os.filterMap Shown.parsed)).getLast?
  gaps : ∀ names : List String, names.Nodup →
    (∀ c ∈ os.filterMap Shown.parsed, c.receiver ∈ names) →
    s.gaps = skipsOf names (os.filterMap Shown.parsed)

theorem noteSeq_last {caps : List Capture}
    (hlast : ∀ n, s.last_seq.get n = (seqsOf n caps).getLast?) (cap : Capture) (name : String) :
    (s.noteSeq cap).last_seq.get name = (seqsOf name (caps ++ [cap])).getLast? := by
  rw [seqsOf_concat, MqttReceiver.noteSeq]
  cases cap.seq with
  | none =>
      rw [Option.toList_none, ite_self, List.append_nil]
      exact hlast name
  | some seq =>
      dsimp only
      split_ifs with hname
      · rw [hname, Dict.get_set_self, Option.toList_some, List.getLast?_concat]
      · rw [Dict.get_set_of_ne _ (Ne.symm hname), List.append_nil]
        exact hlast name

theorem noteSeq_gaps {caps : List Capture} {names : List String} (hnodup : names.Nodup)
    (hlast : ∀ n, s.last_seq.get n = (seqsOf n caps).getLast?)
    (hgaps : s.gaps = skipsOf names caps) {cap : Capture} (hmem : cap.receiver ∈ names) :
    (s.noteSeq cap).gaps = skipsOf names (caps ++ [cap]) := by
  rw [skipsOf_concat hnodup hmem, MqttReceiver.noteSeq, ← hgaps]
  cases cap.seq with
  | none => rfl
  | some seq =>
      dsimp only
      rw [hlast cap.receiver]
      split_ifs <;> rfl

theorem noteSeq_keeps (cap : Capture) :
    (s.noteSeq cap).maxsize = s.maxsize ∧ (s.noteSeq cap).q = s.q ∧
      (s.noteSeq cap).received = s.received ∧ (s.noteSeq cap).dropped = s.dropped := by
  rw [MqttReceiver.noteSeq]
  cases cap.seq <;> exact ⟨rfl, rfl, rfl, rfl⟩

theorem Accounted.message {maxsize : ℕ} {os : List Shown} (h : Accounted maxsize s os)
    (cap : Capture) :
    Accounted maxsize ((s.noteSeq cap).putNowait cap).1
      (os ++ [((s.noteSeq cap).putNowait cap).2]) := by
  obtain ⟨hsize, hq, hreceived, -⟩ := noteSeq_keeps (s := s) cap
  have hlast := noteSeq_last h.last cap
  have hgaps : ∀ names : List String, names.Nodup →
      (∀ c ∈ os.filterMap Shown.parsed ++ [cap], c.receiver ∈ names) →
      (s.noteSeq cap).gaps = skipsOf names (os.filterMap Shown.parsed ++ [cap]) := by
    intro names hnodup hall
    exact noteSeq_gaps hnodup h.last
      (h.gaps names hnodup (fun c hc => hall c (List.mem_append_left _ hc)))
      (hall cap (List.mem_append_right _ (List.mem_singleton.mpr rfl)))
  rw [MqttReceiver.putNowait]
  split_ifs with hfull
  · exact
      { size := hsize.trans h.size
        queued := by simpa [hq] using h.queued
        received := by simpa [hq, hreceived] using h.received
        bound := by simpa only [hq] using h.bound
        last := by simpa using hlast
        gaps := by simpa using hgaps }
  · have hroom : 0 < maxsize → s.q.length < maxsize := by
      intro hpos
      simp only [MqttReceiver.full, hq, hsize, h.size, hpos, decide_true, Bool.true_and,
        decide_eq_true_eq, not_le] at hfull
      exact hfull
    exact
      { size := hsize.trans h.size
        queued := by simpa [hq, ← List.append_assoc] using h.queued
        received := by
          have hbefore := h.received
          simp only [List.length_append] at hbefore
          simp [hq, hreceived, hbefore]
          omega
        bound := fun hpos => by
          simp only [hq, List.length_append, List.length_singleton]
          exact hroom hpos
        last := by simpa using hlast
        gaps := by simpa using hgaps }

theorem Accounted.step {maxsize : ℕ} {os : List Shown} (h : Accounted maxsize s os)
    (d : Delivery) :
    Accounted maxsize (s.step b64decode loads decimal d).1 (os ++ [(s.step b64decode loads decimal d).2]) := by
  cases d with
  | message topic payload now =>
      rw [MqttReceiver.step, MqttReceiver.onMessage]
      cases fromPayload b64decode loads decimal topic payload now with
      | error e =>
          exact ⟨h.size, by simpa using h.queued, by simpa using h.received, h.bound,
            by simpa using h.last, by simpa using h.gaps⟩
      | ok cap =>
          cases cap with
          | none =>
              exact ⟨h.size, by simpa using h.queued, by simpa using h.received, h.bound,
                by simpa using h.last, by simpa using h.gaps⟩
          | some cap => exact h.message cap
  | next =>
      rw [MqttReceiver.step, MqttReceiver.nextCapture]
      cases hq : s.q with
      | nil =>
          exact ⟨h.size, by simpa using h.queued, by simpa using h.received, h.bound,
            by simpa using h.last, by simpa using h.gaps⟩
      | cons cap q =>
          have hqueued := h.queued
          have hreceived := h.received
          have hbound := h.bound
          rw [hq] at hqueued hreceived hbound
          exact ⟨h.size, by simpa using hqueued, by simpa using hreceived,
            fun hpos => (Nat.le_succ _).trans (hbound hpos), by simpa using h.last,
            by simpa using h.gaps⟩

theorem parsed_step (d : Delivery) : (s.step b64decode loads decimal d).2.parsed = captureOf b64decode loads decimal d := by
  cases d with
  | message topic payload now =>
      rw [MqttReceiver.step, MqttReceiver.onMessage, captureOf]
      cases fromPayload b64decode loads decimal topic payload now with
      | error e => rfl
      | ok cap =>
          cases cap with
          | none => rfl
          | some cap =>
              dsimp only
              rw [MqttReceiver.putNowait]
              split_ifs <;> rfl
  | next =>
      rw [MqttReceiver.step, MqttReceiver.nextCapture]
      cases s.q <;> rfl

theorem parsed_run (s : MqttReceiver) (ds : List Delivery) :
    (Machine.run (MqttReceiver.step b64decode loads decimal) s ds).2.filterMap Shown.parsed =
      arrived b64decode loads decimal ds := by
  induction ds generalizing s with
  | nil => rfl
  | cons d ds ih =>
      rw [Machine.run_cons, arrived, List.filterMap_cons, List.filterMap_cons, parsed_step, ih]
      rfl

/-- Each message is queued, dropped or raises. -/
theorem messages_step (d : Delivery) :
    (s.step b64decode loads decimal d).1.received + (s.step b64decode loads decimal d).1.dropped +
        (s.step b64decode loads decimal d).2.raised.toNat =
      s.received + s.dropped + (isMessage d).toNat := by
  cases d with
  | message topic payload now =>
      rw [MqttReceiver.step, MqttReceiver.onMessage]
      cases fromPayload b64decode loads decimal topic payload now with
      | error e => rfl
      | ok cap =>
          cases cap with
          | none => exact (Nat.add_assoc _ _ _).symm
          | some cap =>
              obtain ⟨-, -, hreceived, hdropped⟩ := noteSeq_keeps (s := s) cap
              dsimp only
              rw [MqttReceiver.putNowait]
              split_ifs
              · simp [hreceived, hdropped, isMessage, Nat.add_assoc]
              · simp [hreceived, hdropped, isMessage]
                omega
  | next =>
      rw [MqttReceiver.step, MqttReceiver.nextCapture]
      cases s.q <;> rfl

theorem messages_run (s : MqttReceiver) (ds : List Delivery) :
    (Machine.run (MqttReceiver.step b64decode loads decimal) s ds).1.received +
        (Machine.run (MqttReceiver.step b64decode loads decimal) s ds).1.dropped +
        (Machine.run (MqttReceiver.step b64decode loads decimal) s ds).2.countP Shown.raised =
      s.received + s.dropped + ds.countP isMessage := by
  induction ds generalizing s with
  | nil => rfl
  | cons d ds ih =>
      have hstep : (s.step b64decode loads decimal d).1.received + (s.step b64decode loads decimal d).1.dropped +
          (s.step b64decode loads decimal d).2.raised.toNat =
        s.received + s.dropped + (isMessage d).toNat := messages_step d
      have hrest := ih (s.step b64decode loads decimal d).1
      rw [Machine.run_cons, List.countP_cons, List.countP_cons]
      cases hraised : (s.step b64decode loads decimal d).2.raised <;> cases hmessage : isMessage d <;>
        simp only [hraised, hmessage, Bool.toNat_true, Bool.toNat_false, if_true, Bool.false_eq_true,
          if_false] at hstep ⊢ <;> omega

theorem start_accounted (maxsize : ℕ) : Accounted maxsize { maxsize } [] where
  size := rfl
  queued := rfl
  received := rfl
  bound _ := Nat.zero_le _
  last _ := rfl
  gaps names _ _ := by simp [skipsOf, Adjacent.count]

theorem run_accounted (maxsize : ℕ) (ds : List Delivery) :
    Accounted maxsize (Machine.run (MqttReceiver.step b64decode loads decimal) { maxsize } ds).1
      (Machine.run (MqttReceiver.step b64decode loads decimal) { maxsize } ds).2 :=
  Machine.history (P := Accounted maxsize) (fun _ _ d h => h.step d) (start_accounted maxsize) ds

end

/-- Over every run each message is queued, dropped or raises an exception; the captures handed on
and then those in the queue, no more than it holds, are captures of the messages, in their order
and as many as were received; and the gaps counted are those in the numbers of each board, whether
the capture behind the gap was queued or dropped. -/
theorem receiver_accounts (b64decode : String → Option (List Byte))
    (loads : String → Option Json) (decimal : Char → Option ℕ)
    (maxsize : ℕ) (ds : List Delivery) :
    let r := Machine.run (MqttReceiver.step b64decode loads decimal) { maxsize } ds
    r.1.received + r.1.dropped + r.2.countP Shown.raised = ds.countP isMessage ∧
      (r.2.filterMap Shown.taken ++ r.1.q).Sublist (arrived b64decode loads decimal ds) ∧
      r.1.received = (r.2.filterMap Shown.taken ++ r.1.q).length ∧
      (0 < maxsize → r.1.q.length ≤ maxsize) ∧
      ∀ names : List String, names.Nodup →
        (∀ c ∈ arrived b64decode loads decimal ds, c.receiver ∈ names) →
        r.1.gaps = skipsOf names (arrived b64decode loads decimal ds) := by
  intro r
  have h : Accounted maxsize r.1 r.2 := run_accounted maxsize ds
  have hparsed : r.2.filterMap Shown.parsed = arrived b64decode loads decimal ds := parsed_run _ ds
  refine ⟨?_, ?_, h.received, h.bound, ?_⟩
  · have hmessages : r.1.received + r.1.dropped + r.2.countP Shown.raised =
        0 + 0 + ds.countP isMessage := messages_run _ ds
    rwa [Nat.zero_add] at hmessages
  · rw [h.queued, ← hparsed]
    exact List.filter_sublist.filterMap _
  · rw [← hparsed]
    exact h.gaps

end InsteonRf.Mqtt
