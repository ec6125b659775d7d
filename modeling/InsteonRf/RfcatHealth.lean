import InsteonRf.Lib.Machine

/-!
# A dongle that stops answering

A dongle on a quiet channel times out again and again, and so does one that has hung. It is reset
and opened again only where the timeouts come with trouble on the USB, and it is then configured
as it was.
-/
namespace InsteonRf.Rfcat

/-- What a radio is configured for: blocks behind the start header, or behind any carrier, of some
size; or transmitting. -/
inductive Mode where
  | rx (sync_header : Bool) (blocksize : ℕ)
  | tx
  deriving DecidableEq

/-- An open dongle as rflib has it: its count of USB errors, its two marks of trouble, and what it
is configured for. -/
structure Dongle where
  usb_errors : ℕ := 0
  reset_event : Bool := false
  resetup_error : Bool := false
  mode : Option Mode := none

structure RfcatRadio where
  auto_reset : Bool := true
  max_usb_errors : ℕ := 3
  rx_kwargs : Option (Bool × ℕ) := none
  tx : Bool := false
  sync_header : Bool := false
  timeouts : ℕ := 0
  heals : ℕ := 0
  usb_errors_ok : ℕ := 0
  dev : Option Dongle

inductive Outcome where
  | block
  | timeout
  | failure
  deriving DecidableEq

/-- How a call that configures the dongle ends: done, or with an exception, having `touched` the
radio or not, and having `noted` the start header or not. -/
inductive Configuring where
  | done
  | failed (touched noted : Bool)
  deriving DecidableEq

/-- What a reset leads to: no open dongle; one that `_common` could not set up; or one that is
set up, with its count of errors, and then configured as it was. -/
inductive Reopened where
  | closed
  | bare (usb_errors : ℕ)
  | back (usb_errors : ℕ) (how : Configuring)
  deriving DecidableEq

/-- rflib counts errors and marks trouble at any time. `reopened` is what a read leads to where it
leads to a reset. -/
inductive Event where
  | usbErrors (n : ℕ)
  | resetEvent (value : Bool)
  | resetupError (value : Bool)
  | configureRx (sync_header : Bool) (blocksize : ℕ) (how : Configuring)
  | configureTx (how : Configuring)
  | rearm (how : Configuring)
  | receive (outcome : Outcome) (reopened : Reopened)
  | heal (reopened : Reopened)
  deriving DecidableEq

/-- What a call gives back: a block, nothing, or an exception. -/
inductive Answer where
  | block
  | nothing
  | raised
  deriving DecidableEq

def Dongle.configured (d : Dongle) (mode : Mode) : Configuring → Dongle
  | .done => { d with mode := some mode }
  | .failed touched _ => if touched then { d with mode := none } else d

def Configuring.noted : Configuring → Bool
  | .done => true
  | .failed _ noted => noted

def Configuring.answer : Configuring → Answer
  | .done => .nothing
  | .failed _ _ => .raised

namespace RfcatRadio

/-- `configure_rx`: what is asked for is kept, whether the dongle takes it or not. -/
def configureRx (s : RfcatRadio) (sync_header : Bool) (blocksize : ℕ) (how : Configuring) :
    RfcatRadio × Answer :=
  let asked := { s with rx_kwargs := some (sync_header, blocksize), tx := false }
  match s.dev with
  | none => (asked, .raised)
  | some d =>
      ({ asked with
          sync_header := if how.noted then sync_header else s.sync_header
          dev := some (d.configured (.rx sync_header blocksize) how) }, how.answer)

def configureTx (s : RfcatRadio) (how : Configuring) : RfcatRadio × Answer :=
  let asked := { s with tx := true, rx_kwargs := none }
  match s.dev with
  | none => (asked, .raised)
  | some d => ({ asked with dev := some (d.configured .tx how) }, how.answer)

/-- `rearm`: the configuration is left alone, but one that fails may leave the radio idle. -/
def rearm (s : RfcatRadio) (how : Configuring) : RfcatRadio × Answer :=
  match s.dev, how with
  | none, _ => (s, .raised)
  | some _, .done => (s, .nothing)
  | some d, .failed touched _ =>
      ({ s with dev := some (if touched then { d with mode := none } else d) }, .raised)

def wedged (s : RfcatRadio) : Bool :=
  match s.dev with
  | none => true
  | some d =>
      d.reset_event || d.resetup_error ||
        (decide (s.max_usb_errors ≤ s.timeouts) && decide (s.usb_errors_ok < d.usb_errors))

/-- What `heal` configures a dongle for that was opened again. -/
def restore (s : RfcatRadio) (how : Configuring) : RfcatRadio × Answer :=
  match s.rx_kwargs with
  | some (sync_header, blocksize) => s.configureRx sync_header blocksize how
  | none => if s.tx then s.configureTx how else (s, .nothing)

def heal (s : RfcatRadio) (reopened : Reopened) : RfcatRadio × Answer :=
  let released := { s with heals := s.heals + 1, dev := none }
  match reopened with
  | .closed => (released, .raised)
  | .bare usb_errors => ({ released with dev := some { usb_errors } }, .raised)
  | .back usb_errors how =>
      ({ released with dev := some { usb_errors }, timeouts := 0, usb_errors_ok := usb_errors } :
        RfcatRadio).restore how

def missed (s : RfcatRadio) (reopened : Reopened) (otherwise : Answer) : RfcatRadio × Answer :=
  let s := { s with timeouts := s.timeouts + 1 }
  if s.auto_reset && s.wedged then s.heal reopened else (s, otherwise)

/-- `receive`; reading a closed dongle is an error of its own. -/
def receive (s : RfcatRadio) (outcome : Outcome) (reopened : Reopened) : RfcatRadio × Answer :=
  match s.dev, outcome with
  | some d, .block => ({ s with timeouts := 0, usb_errors_ok := d.usb_errors }, .block)
  | some _, .timeout => s.missed reopened .nothing
  | some _, .failure => s.missed reopened .raised
  | none, _ => s.missed reopened .raised

def step (s : RfcatRadio) : Event → RfcatRadio × Answer
  | .usbErrors n =>
      ({ s with dev := s.dev.map (fun d => { d with usb_errors := d.usb_errors + n }) }, .nothing)
  | .resetEvent value =>
      ({ s with dev := s.dev.map (fun d => { d with reset_event := value }) }, .nothing)
  | .resetupError value =>
      ({ s with dev := s.dev.map (fun d => { d with resetup_error := value }) }, .nothing)
  | .configureRx sync_header blocksize how => s.configureRx sync_header blocksize how
  | .configureTx how => s.configureTx how
  | .rearm how => s.rearm how
  | .receive outcome reopened => s.receive outcome reopened
  | .heal reopened => s.heal reopened

end RfcatRadio

def opened (auto_reset : Bool) (max_usb_errors usb_errors : ℕ) : RfcatRadio :=
  { auto_reset, max_usb_errors, dev := some { usb_errors } }

/-- What a radio was last asked to be configured for. -/
def RfcatRadio.wanted (s : RfcatRadio) : Option Mode :=
  match s.rx_kwargs with
  | some (sync_header, blocksize) => some (.rx sync_header blocksize)
  | none => if s.tx then some .tx else none

/-- An open dongle is configured as asked for last, and the header is put back in front of the
blocks exactly where the radio waits for it. -/
structure Configured (s : RfcatRadio) : Prop where
  mode : ∀ d ∈ s.dev, d.mode = s.wanted
  header : ∀ d ∈ s.dev, ∀ k ∈ s.rx_kwargs, s.sync_header = k.1

def Event.Clean : Event → Prop
  | .configureRx _ _ how => how = .done
  | .configureTx how => how = .done
  | .rearm how => how = .done
  | .receive _ reopened => reopened = .closed ∨ ∃ n, reopened = .back n .done
  | .heal reopened => reopened = .closed ∨ ∃ n, reopened = .back n .done
  | _ => True

theorem Configured.of_same {s t : RfcatRadio} (h : Configured s) (hrx : t.rx_kwargs = s.rx_kwargs)
    (htx : t.tx = s.tx) (hheader : t.sync_header = s.sync_header)
    (hmode : ∀ d ∈ t.dev, ∃ e ∈ s.dev, d.mode = e.mode) : Configured t := by
  constructor
  · intro d hd
    obtain ⟨e, he, hde⟩ := hmode d hd
    rw [hde, h.mode e he, RfcatRadio.wanted, RfcatRadio.wanted, hrx, htx]
  · intro d hd k hk
    obtain ⟨e, he, -⟩ := hmode d hd
    rw [hheader]
    exact h.header e he k (hrx ▸ hk)

/-- A call that configures the dongle counts nothing and marks nothing. -/
structure Keeps (s t : RfcatRadio) : Prop where
  resets : t.auto_reset = s.auto_reset
  limit : t.max_usb_errors = s.max_usb_errors
  heals : t.heals = s.heals
  ok : t.usb_errors_ok = s.usb_errors_ok
  dev : ∀ d ∈ t.dev, ∃ e ∈ s.dev, d.usb_errors = e.usb_errors ∧ d.reset_event = e.reset_event ∧
    d.resetup_error = e.resetup_error
  stays : s.dev.isSome = true → t.dev.isSome = true

/-- No trouble: the dongle is open and unmarked, and it has counted no error since the last block
or reset. -/
def Calm (s : RfcatRadio) : Prop :=
  ∃ d, s.dev = some d ∧ d.reset_event = false ∧ d.resetup_error = false ∧
    d.usb_errors = s.usb_errors_ok

theorem Calm.not_wedged {s : RfcatRadio} (h : Calm s) (n : ℕ) :
    ({ s with timeouts := n } : RfcatRadio).wedged = false := by
  obtain ⟨d, hdev, hreset, hresetup, herrors⟩ := h
  simp [RfcatRadio.wedged, hdev, hreset, hresetup, herrors]

theorem Calm.missed {s : RfcatRadio} (h : Calm s) (reopened : Reopened) (otherwise : Answer) :
    s.missed reopened otherwise = ({ s with timeouts := s.timeouts + 1 }, otherwise) := by
  simp only [RfcatRadio.missed, h.not_wedged, Bool.and_false, Bool.false_eq_true, if_false]

/-- In trouble: open and unmarked, with an error that no block or reset came after. -/
structure Troubled (s : RfcatRadio) : Prop where
  resets : s.auto_reset = true
  trouble : ∃ d, s.dev = some d ∧ d.reset_event = false ∧ d.resetup_error = false ∧
    s.usb_errors_ok < d.usb_errors

theorem Troubled.missed {s : RfcatRadio} (h : Troubled s) (reopened : Reopened)
    (otherwise : Answer) :
    s.missed reopened otherwise =
      if s.max_usb_errors ≤ s.timeouts + 1 then
        ({ s with timeouts := s.timeouts + 1 } : RfcatRadio).heal reopened
      else ({ s with timeouts := s.timeouts + 1 }, otherwise) := by
  obtain ⟨d, hdev, hreset, hresetup, herrors⟩ := h.trouble
  simp [RfcatRadio.missed, RfcatRadio.wedged, h.resets, hdev, hreset, hresetup, herrors]

/-- The settings stay, and the errors of the last block or reset are no more than those of the
dongle. -/
structure Watched (max_usb_errors : ℕ) (bare : Bool) (s : RfcatRadio) : Prop where
  resets : s.auto_reset = true
  limit : s.max_usb_errors = max_usb_errors
  counted : bare = false → ∀ d ∈ s.dev, s.usb_errors_ok ≤ d.usb_errors

theorem Watched.of_same {max_usb_errors : ℕ} {bare : Bool} {s t : RfcatRadio}
    (h : Watched max_usb_errors bare s) (hresets : t.auto_reset = s.auto_reset)
    (hlimit : t.max_usb_errors = s.max_usb_errors) (hok : t.usb_errors_ok = s.usb_errors_ok)
    (hdev : ∀ d ∈ t.dev, ∃ e ∈ s.dev, e.usb_errors ≤ d.usb_errors) :
    Watched max_usb_errors bare t where
  resets := hresets.trans h.resets
  limit := hlimit.trans h.limit
  counted hbare d hd := by
    obtain ⟨e, he, hle⟩ := hdev d hd
    rw [hok]
    exact (h.counted hbare e he).trans hle

end InsteonRf.Rfcat
