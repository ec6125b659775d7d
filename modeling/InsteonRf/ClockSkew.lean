import InsteonRf.Packet
import InsteonRf.Lib.OrderedDict
import InsteonRf.Lib.Selection

/-!
# Receiver clocks

Each receiver's constant clock offset is learned from the messages the receivers
share: the median of its last samples, re-centred so that the receivers' own
median is zero, and clamped.
-/
namespace InsteonRf
open OrderedDict Selection

/-- The median of a nonempty list; the mean of the middle two when there are two. -/
def median (l : List ℚ) : ℚ :=
  let s := sortOn (fun x : ℚ => x) l
  if s.length % 2 = 1 then s.getD (s.length / 2) 0
  else (s.getD (s.length / 2 - 1) 0 + s.getD (s.length / 2) 0) / 2

structure ClockSkew where
  min_samples : ℕ := 20
  keep : ℕ := 200
  max_abs_s : ℚ := 2
  samples : Dict String (List Time) := Dict.empty
  offsets : Dict String Time := Dict.empty

namespace ClockSkew

def offset (k : ClockSkew) (receiver : String) : Time := (k.offsets.get receiver).getD 0

def correct (k : ClockSkew) (receiver : String) (w : Time) : Time := w - k.offset receiver

def push (keep : ℕ) (q : List Time) (x : Time) : List Time :=
  (q ++ [x]).drop ((q ++ [x]).length - keep)

/-- One shared message: `raw` is each receiver's uncorrected origin time. -/
def learn (k : ClockSkew) (raw : Dict String Time) : ClockSkew :=
  if raw.items.length < 2 then k
  else
    let consensus := median (raw.items.map (fun e => e.2 - k.offset e.1))
    let samples := raw.items.foldl
      (fun d e => d.set e.1 (push k.keep ((d.get e.1).getD []) (e.2 - consensus))) k.samples
    let ready := (samples.items.filter (fun e => decide (k.min_samples ≤ e.2.length))).map
      (fun e => (e.1, median e.2))
    if ready = [] then { k with samples }
    else
      -- Relative offsets only: the receivers' own median is the reference.
      let centre := median (ready.map Prod.snd)
      let offsets := ready.foldl
        (fun d e => d.set e.1 (max (-k.max_abs_s) (min k.max_abs_s (e.2 - centre)))) k.offsets
      { k with samples, offsets }

end ClockSkew

end InsteonRf
