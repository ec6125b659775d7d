import InsteonRf.Cc1101
import InsteonRf.Lib.Excerpts

/-!
# The CC1101's FIFO, disturbed

The FIFO overflows, a capture stalls, the exchange goes quiet, or the receiver is restarted for
some other reason: the task throws away what it has and starts over. What was thrown away is
counted, and nothing of it turns up in a later capture.
-/
namespace InsteonRf.Cc1101

def Radio.cleared (r : Radio) : Radio := { r with overflowed := false }

/-- What holds between two steps of any run: as `Framed`, with a FIFO that may have
overflowed. -/
def Held (r : Radio) : Prop := Framed r.cleared

/-- How often the task has counted a fresh start. -/
def freshStarts (r : Radio) : ℕ := r.overflows + r.stalls + r.quiet_ends

def isRestart : Event → Bool
  | .restart => true
  | _ => false

def block (s : Shown) : List (List Byte) :=
  s.finished.toList.map (fun e => e.1.data.take e.1.len)

/-- What a step does to the bytes: it passes them on, loses the one that came in while the FIFO
was full, or starts over, behind a capture it may have finished. -/
inductive Passes (r r' : Radio) (s : Shown) (e : Event) : Prop
  | flows (bytes : (block s).flatten ++ contents r' = contents r ++ (arrival e).toList)
      (flag : r'.overflowed = r.overflowed) (clear : arrival e = none ∨ r.overflowed = false)
      (counted : freshStarts r' = freshStarts r ∧ isRestart e = false)
  | loses (bytes : contents r' = contents r) (flag : r'.overflowed = true) (quiet : block s = [])
      (counted : freshStarts r' = freshStarts r ∧ isRestart e = false)
  | restarts (rest : List Byte) (bytes : (block s).flatten ++ rest = contents r)
      (emptied : contents r' = []) (flag : r'.overflowed = false) (quiet : arrival e = none)
      (counted : freshStarts r' + (isRestart e).toNat = freshStarts r + 1)

structure StepHeld (r r' : Radio) (s : Shown) (e : Event) : Prop where
  held : Held r'
  capture_bytes : r'.capture_bytes = r.capture_bytes
  passes : Passes r r' s e
  finished : ∀ p ∈ block s, 32 ≤ p.length ∧ p.length ≤ r.capture_bytes

theorem block_eq (s : Shown) : (block s).flatten = piece s := by
  rw [block, piece]
  cases s.finished with
  | none => rfl
  | some e => exact List.append_nil _

theorem pieces_cons (s : Shown) (shown : List Shown) :
    pieces (s :: shown) = block s ++ pieces shown := by
  rw [pieces, captures_cons, List.map_append]
  rfl

namespace Radio

/-- From the same radio with the flag clear a part of the task does the same, keeping the flag
and counting no fresh start. -/
structure Mirrors (r r' c : Radio) : Prop where
  cleared : c = r'.cleared
  flag : r'.overflowed = r.overflowed
  counted : freshStarts r' = freshStarts r

theorem Mirrors.trans {r r' r'' c : Radio} (h : Mirrors r r' r'.cleared) (h' : Mirrors r' r'' c) :
    Mirrors r r'' c :=
  ⟨h'.cleared, h'.flag.trans h.flag, h'.counted.trans h.counted⟩

theorem Mirrors.of_cur (r : Radio) (cur : CC1101Capture) :
    Mirrors r { r with cur } { r.cleared with cur } := ⟨rfl, rfl, rfl⟩

theorem sampleSignal_mirrors (r : Radio) (d : Drain) (rssi freqest : Byte) :
    Mirrors r (r.sampleSignal d rssi freqest) (r.cleared.sampleSignal d rssi freqest) := by
  rw [sampleSignal, sampleSignal]
  by_cases hfirst : r.got = 0
  · rw [if_pos hfirst, if_pos (show r.cleared.got = 0 from hfirst)]
    exact Mirrors.of_cur r _
  · rw [if_neg hfirst, if_neg (show ¬r.cleared.got = 0 from hfirst)]
    exact ⟨rfl, rfl, rfl⟩

theorem sendCapture_mirrors (r : Radio) (len : ℕ) :
    (r.cleared.sendCapture len).2 = (r.sendCapture len).2 ∧
      Mirrors r (r.sendCapture len).1 (r.cleared.sendCapture len).1 := by
  rw [sendCapture, sendCapture]
  by_cases hroom : r.queue.length < queueDepth
  · rw [if_pos hroom, if_pos (show r.cleared.queue.length < queueDepth from hroom)]
    exact ⟨rfl, rfl, rfl, rfl⟩
  · rw [if_neg hroom, if_neg (show ¬r.cleared.queue.length < queueDepth from hroom)]
    exact ⟨rfl, rfl, rfl, rfl⟩

theorem takeBytes_mirrors (r : Radio) (d : Drain) (n : ℕ) :
    (r.cleared.takeBytes d n).2 = (r.takeBytes d n).2 ∧
      Mirrors r (r.takeBytes d n).1 (r.cleared.takeBytes d n).1 := by
  have hadvance : r.cleared.advance d n = (r.advance d n).cleared := rfl
  have hmirror : Mirrors r (r.advance d n) (r.advance d n).cleared := ⟨rfl, rfl, rfl⟩
  have hread : FifoRead.mk n d.avail r.cleared.got r.cleared.fifo.length =
      ⟨n, d.avail, r.got, r.fifo.length⟩ := rfl
  rw [takeBytes, takeBytes, hadvance, hread]
  generalize r.advance d n = r' at hmirror ⊢
  obtain ⟨hqueued, hsent⟩ := sendCapture_mirrors r' r'.capture_bytes
  have hsize : r'.cleared.capture_bytes = r'.capture_bytes := rfl
  by_cases hfull : r'.got = r'.capture_bytes
  · have hfull' : r'.cleared.got = r'.capture_bytes := hfull
    simp only [hsize, if_pos hfull, if_pos hfull', hqueued, hsent.cleared]
    exact ⟨rfl, hmirror.trans ⟨rfl, hsent.flag, hsent.counted⟩⟩
  · have hfull' : ¬r'.cleared.got = r'.capture_bytes := hfull
    simp only [hsize, if_neg hfull, if_neg hfull']
    exact ⟨trivial, hmirror⟩

theorem iterate_mirrors (r : Radio) (d : Drain) (rssi freqest : Byte) :
    (r.cleared.iterate d rssi freqest).2 = (r.iterate d rssi freqest).2 ∧
      Mirrors r (r.iterate d rssi freqest).1 (r.cleared.iterate d rssi freqest).1 := by
  have hsampled := sampleSignal_mirrors r d rssi freqest
  rw [iterate, iterate]
  by_cases hempty : d.avail = 0
  · rw [if_pos hempty, if_pos hempty]
    exact ⟨rfl, rfl, rfl, rfl⟩
  · rw [if_neg hempty, if_neg hempty]
    have hcleared := hsampled.cleared
    rw [hcleared] at hsampled ⊢
    generalize r.sampleSignal d rssi freqest = r' at hsampled ⊢
    have hremaining : (r'.cleared.capture_bytes + 256 - r'.cleared.got) % 256 =
        (r'.capture_bytes + 256 - r'.got) % 256 := by
      simp only [cleared]
    simp only [hremaining]
    generalize (r'.capture_bytes + 256 - r'.got) % 256 = remaining
    split_ifs
    · exact ⟨(takeBytes_mirrors r' d _).1, hsampled.trans (takeBytes_mirrors r' d _).2⟩
    · exact ⟨rfl, hsampled.trans ⟨rfl, rfl, rfl⟩⟩
    · exact ⟨(takeBytes_mirrors r' d _).1, hsampled.trans (takeBytes_mirrors r' d _).2⟩

theorem restartRx_held {r : Radio} (h : Held r) : Held r.restartRx :=
  ⟨h.size, Nat.lt_of_lt_of_le (Nat.zero_lt_succ 31) h.size.1, h.data, Nat.zero_le _, rfl,
    fun _ hd => by cases hd⟩

theorem contents_restartRx (r : Radio) : contents r.restartRx = [] := by
  rw [contents, restartRx, List.take_zero, List.append_nil]

end Radio

namespace Held
variable {r : Radio}

theorem rxbytes_eq (h : Held r) : r.rxbytes = r.fifo.length :=
  Framed.rxbytes_eq (r := r.cleared) h

theorem flows {r' : Radio} {e : Event} (hr' : Held r') (hsize : r'.capture_bytes = r.capture_bytes)
    (hbytes : contents r' = contents r) (hflag : r'.overflowed = r.overflowed)
    (hquiet : arrival e = none) (hcounted : freshStarts r' = freshStarts r ∧ isRestart e = false) :
    StepHeld r r' {} e := by
  refine ⟨hr', hsize, .flows ?_ hflag (Or.inl hquiet) hcounted, fun p hp => absurd hp List.not_mem_nil⟩
  rw [hquiet, hbytes]
  exact (List.append_nil _).symm

theorem restarts {r₀ : Radio} {s : Shown} {e : Event} (hquiet : block s = [])
    (hsize : r₀.capture_bytes = r.capture_bytes) (hheld : Held r₀) (he : arrival e = none)
    (hcounted : freshStarts r₀ + (isRestart e).toNat = freshStarts r + 1) :
    StepHeld r r₀.restartRx s e := by
  refine ⟨Radio.restartRx_held hheld, hsize, ?_, fun p hp => ?_⟩
  · refine .restarts (contents r) ?_ (Radio.contents_restartRx r₀) rfl he hcounted
    rw [hquiet]
    rfl
  · rw [hquiet] at hp
    cases hp

theorem arrive_held (h : Held r) (b : Byte) : StepHeld r (r.arrive b) {} (.arrive b) := by
  have hnothing : ∀ p ∈ block {}, 32 ≤ p.length ∧ p.length ≤ r.capture_bytes :=
    fun p hp => absurd hp List.not_mem_nil
  rw [Radio.arrive]
  split_ifs with hflag hfull
  · exact ⟨h, rfl, .loses rfl hflag rfl ⟨rfl, rfl⟩, hnothing⟩
  · exact ⟨⟨h.size, h.got, h.data, h.fifo, rfl, h.avail⟩, rfl, .loses rfl rfl rfl ⟨rfl, rfl⟩,
      hnothing⟩
  · have hclear : r.overflowed = false := Bool.eq_false_iff.mpr hflag
    have hsame : { r with overflowed := false } = r := by rw [← hclear]
    have hframed : Framed r := hsame ▸ h
    have hok := hframed.arrive_ok (Nat.not_le.mp hfull) b
    rw [Radio.arrive, if_neg hflag, if_neg hfull] at hok
    refine ⟨⟨hok.framed.size, hok.framed.got, hok.framed.data, hok.framed.fifo, rfl,
      hok.framed.avail⟩, rfl, .flows ?_ rfl (Or.inr hclear) ⟨rfl, rfl⟩, hnothing⟩
    rw [block_eq]
    exact hok.contents

theorem beginDrain_held (h : Held r) (now : BitVec 32) :
    StepHeld r (r.beginDrain now) {} (.drain now) := by
  have hrxbytes : r.rxbytes = r.fifo.length := h.rxbytes_eq
  have hcounts : ∀ d ∈ some (Drain.mk now r.rxbytes), d.avail ≤ r.fifo.length := by
    intro d hd
    cases hd
    exact hrxbytes.le
  rw [Radio.beginDrain]
  split_ifs
  · refine restarts rfl rfl ⟨h.size, h.got, h.data, h.fifo, rfl, h.avail⟩ rfl ?_
    simp only [freshStarts, isRestart, Bool.toNat_false]
    omega
  · refine restarts rfl rfl ⟨h.size, h.got, h.data, h.fifo, rfl, h.avail⟩ rfl ?_
    simp only [freshStarts, isRestart, Bool.toNat_false]
    omega
  · exact flows ⟨h.size, h.got, h.data, h.fifo, rfl, hcounts⟩ rfl rfl rfl rfl ⟨rfl, rfl⟩
  · exact flows ⟨h.size, h.got, h.data, h.fifo, rfl, hcounts⟩ rfl rfl rfl rfl ⟨rfl, rfl⟩

theorem iterate_held (h : Held r) {d : Drain} (hdrain : r.drain = some d) (rssi freqest : Byte) :
    StepHeld r (r.iterate d rssi freqest).1 (r.iterate d rssi freqest).2
      (.iterate rssi freqest) := by
  obtain ⟨hshown, hcleared, hflag, hcounted⟩ := Radio.iterate_mirrors r d rssi freqest
  have hok := Framed.iterate_ok h hdrain rssi freqest
  rw [hshown, hcleared] at hok
  refine ⟨hok.framed, hok.capture_bytes, .flows ?_ hflag (Or.inl rfl) ⟨hcounted, rfl⟩, ?_⟩
  · rw [block_eq]
    exact hok.contents
  · intro p hp
    obtain ⟨e, he, rfl⟩ := List.mem_map.mp hp
    have hlength := hok.finished e (Option.mem_toList.mp he)
    rw [hlength]
    exact ⟨h.size.1, le_rfl⟩

/-- The tail is read behind the bytes in hand, and the rest of the FIFO is thrown away. -/
theorem takeTail_eq (h : Held r) :
    r.takeTail.cur.data.take r.takeTail.got ++ r.fifo.drop r.tailCount = contents r ∧
      r.takeTail.got ≤ r.capture_bytes ∧ r.takeTail.cur.data.length = dataSize := by
  have hrxbytes : r.rxbytes = r.fifo.length := h.rxbytes_eq
  have hgot : r.got < r.capture_bytes := h.got
  have hsize : r.capture_bytes ≤ 255 := h.size.2
  have hlen : r.cur.data.length = 255 := h.data
  have htail : r.tailCount = min r.fifo.length (r.capture_bytes - r.got) := by
    rw [Radio.tailCount, hrxbytes]
    congr 1
    omega
  have hle : r.tailCount ≤ r.fifo.length := htail ▸ min_le_left _ _
  have hroom : r.got + r.tailCount ≤ r.capture_bytes := by
    have hright : r.tailCount ≤ r.capture_bytes - r.got := htail ▸ min_le_right _ _
    omega
  have hnow : r.takeTail.got = r.got + r.tailCount := Nat.mod_eq_of_lt (by omega)
  have hdata : r.takeTail.cur.data = r.cur.data.take r.got ++ (r.fifo.take r.tailCount ++
      r.cur.data.drop (r.got + r.tailCount)) := by
    rw [Radio.takeTail, Radio.readFifo]
    simp only [List.take_append_of_le_length hle]
  refine ⟨?_, hnow.trans_le hroom, ?_⟩
  · have htaken : (r.cur.data.take r.got ++ r.fifo.take r.tailCount).length =
        r.got + r.tailCount := by
      simp only [List.length_append, List.length_take, hlen]
      omega
    rw [hnow, hdata, ← List.append_assoc, List.take_left' htaken, List.append_assoc,
      List.take_append_drop, contents]
  · rw [hdata, dataSize]
    simp only [List.length_append, List.length_take, List.length_drop, hlen]
    omega

/-- A fresh start behind the tail, with or without a capture. -/
theorem quietEnd_held (h : Held r) (r₀ : Radio) (hsize : r₀.capture_bytes = r.capture_bytes)
    (hcounted : freshStarts r₀ = freshStarts r) (hdata : r₀.cur.data.length = dataSize) {s : Shown}
    (rest : List Byte) (hbytes : (block s).flatten ++ rest = contents r)
    (hfinished : ∀ p ∈ block s, 32 ≤ p.length ∧ p.length ≤ r.capture_bytes) :
    StepHeld r r₀.quietEnd s .endEarly := by
  refine ⟨?_, hsize, .restarts rest hbytes (Radio.contents_restartRx _) rfl rfl ?_, hfinished⟩
  · refine ⟨?_, ?_, hdata, Nat.zero_le _, rfl, fun _ hd => by cases hd⟩
    · exact hsize ▸ h.size
    · exact Nat.lt_of_lt_of_le (Nat.zero_lt_succ 31) (hsize ▸ h.size.1)
  · have hstarts : freshStarts r₀.quietEnd = freshStarts r₀ + 1 := rfl
    rw [hstarts, hcounted]
    rfl

theorem endCaptureEarly_held (h : Held r) :
    StepHeld r r.endCaptureEarly.1 r.endCaptureEarly.2 .endEarly := by
  have hnothing : ∀ s : Shown, block s = [] →
      (block s).flatten ++ contents r = contents r ∧
        ∀ p ∈ block s, 32 ≤ p.length ∧ p.length ≤ r.capture_bytes := by
    intro s hs
    rw [hs]
    exact ⟨rfl, fun p hp => absurd hp List.not_mem_nil⟩
  obtain ⟨hbytes, hgot, hdata⟩ := h.takeTail_eq
  have hsize : r.takeTail.capture_bytes = r.capture_bytes := rfl
  have hsame : freshStarts r.takeTail = freshStarts r := rfl
  rw [Radio.endCaptureEarly]
  by_cases hflag : r.overflowed = true
  · rw [if_pos hflag]
    exact h.quietEnd_held r rfl rfl h.data _ (hnothing {} rfl).1 (hnothing {} rfl).2
  · rw [if_neg hflag]
    simp only
    generalize r.takeTail = r' at hbytes hgot hdata hsize hsame ⊢
    by_cases hlong : 32 ≤ r'.got
    · obtain ⟨queue, queue_drops, queued, hsend⟩ := Framed.sendCapture_eq r' r'.got
      have hlength : (r'.cur.data.take r'.got).length = r'.got := by
        rw [List.length_take, hdata]
        exact Nat.min_eq_left (hgot.trans h.size.2)
      simp only [if_pos hlong, hsend]
      refine h.quietEnd_held { r' with cur := { r'.cur with len := r'.got }, queue, queue_drops }
        hsize hsame hdata (r.fifo.drop r.tailCount) ?_ ?_
      · rw [block_eq, ← hbytes]
        rfl
      · intro p hp
        obtain rfl := List.mem_singleton.mp hp
        exact ⟨hlong.trans_eq hlength.symm, hlength.trans_le hgot⟩
    · simp only [if_neg hlong]
      exact h.quietEnd_held r' hsize hsame hdata _ (hnothing _ rfl).1 (hnothing _ rfl).2

theorem step_held (h : Held r) (e : Event) : StepHeld r (r.step e).1 (r.step e).2 e := by
  have hstay : arrival e = none → isRestart e = false → StepHeld r r {} e :=
    fun hquiet he => flows h rfl rfl rfl hquiet ⟨rfl, he⟩
  cases e with
  | arrive b => exact h.arrive_held b
  | drain now =>
      rw [Radio.step]
      cases r.drain with
      | none => exact h.beginDrain_held now
      | some d => exact hstay rfl rfl
  | iterate rssi freqest =>
      rw [Radio.step]
      cases hdrain : r.drain with
      | none => exact hstay rfl rfl
      | some d => exact h.iterate_held hdrain rssi freqest
  | receive =>
      rw [Radio.step]
      cases r.queue with
      | nil => exact hstay rfl rfl
      | cons c queue =>
          have hrest : Held { r with queue } := ⟨h.size, h.got, h.data, h.fifo, rfl, h.avail⟩
          exact ⟨hrest, rfl, .flows (List.append_nil _).symm rfl (Or.inl rfl) ⟨rfl, rfl⟩,
            fun p hp => absurd hp List.not_mem_nil⟩
  | endEarly => exact h.endCaptureEarly_held
  | restart => exact restarts rfl rfl h rfl rfl

end Held

/-- The captures of a run are excerpts of what is in hand, of what was lost behind it if the
FIFO has overflowed, and of what comes in. -/
theorem run_held {r : Radio} (h : Held r) (es : List Event) :
    Held (Machine.run Radio.step r es).1 ∧
      (Machine.run Radio.step r es).1.capture_bytes = r.capture_bytes ∧
      (∀ p ∈ pieces (Machine.run Radio.step r es).2, 32 ≤ p.length ∧ p.length ≤ r.capture_bytes) ∧
      ∃ starts, freshStarts (Machine.run Radio.step r es).1 + es.countP isRestart =
          freshStarts r + starts ∧
        ∀ lost, (r.overflowed = false → lost = []) →
          Excerpts starts (pieces (Machine.run Radio.step r es).2)
            (contents r ++ lost ++ arrivals es) := by
  induction es generalizing r with
  | nil => exact ⟨h, rfl, fun p hp => absurd hp List.not_mem_nil, 0, rfl, fun _ _ => .stop 0 _⟩
  | cons e es ih =>
      obtain ⟨hheld, hsize, hpasses, hfinished⟩ := h.step_held e
      obtain ⟨hlast, hlastSize, hpieces, starts, hstarts, hexcerpts⟩ := ih hheld
      have harrivals : arrivals (e :: es) = (arrival e).toList ++ arrivals es := by
        rw [arrivals, List.filterMap_cons]
        cases arrival e <;> rfl
      have hcount : (e :: es).countP isRestart = es.countP isRestart + (isRestart e).toNat := by
        rw [List.countP_cons]
        cases isRestart e <;> rfl
      refine ⟨hlast, hlastSize.trans hsize, ?_, ?_⟩
      · intro p hp
        rw [Machine.run_cons, pieces_cons] at hp
        rcases List.mem_append.mp hp with hp | hp
        · exact hfinished p hp
        · exact hsize ▸ hpieces p hp
      rw [Machine.run_cons, pieces_cons, harrivals, hcount]
      dsimp only
      cases hpasses with
      | flows hbytes hflag hclear hcounted =>
          refine ⟨starts, ?_, ?_⟩
          · rw [hcounted.2, Bool.toNat_false, Nat.add_zero, hstarts, hcounted.1]
          · intro lost hlost
            have hmoved : contents r ++ lost ++ ((arrival e).toList ++ arrivals es) =
                (block (r.step e).2).flatten ++ (contents (r.step e).1 ++ lost ++ arrivals es) := by
              rcases hclear with hnone | hclear
              · rw [hnone] at hbytes ⊢
                rw [Option.toList_none, List.append_nil] at hbytes
                rw [← hbytes]
                simp only [Option.toList_none, List.nil_append, List.append_assoc]
              · rw [hlost hclear, List.append_nil, List.append_nil, ← List.append_assoc, ← hbytes,
                  List.append_assoc]
            rw [hmoved]
            exact (hexcerpts lost (hflag ▸ hlost)).takes (block (r.step e).2)
      | loses hbytes hflag hquiet hcounted =>
          refine ⟨starts, ?_, ?_⟩
          · rw [hcounted.2, Bool.toNat_false, Nat.add_zero, hstarts, hcounted.1]
          · intro lost _
            have hmore := hexcerpts (lost ++ (arrival e).toList) (fun hclear => by
              rw [hflag] at hclear
              cases hclear)
            rw [hquiet, List.nil_append, ← hbytes]
            simpa only [List.append_assoc] using hmore
      | restarts rest hbytes hemptied hflag hquiet hcounted =>
          refine ⟨starts + 1, ?_, ?_⟩
          · omega
          · intro lost _
            have hmore := hexcerpts [] (fun _ => rfl)
            rw [hemptied, List.append_nil, List.nil_append] at hmore
            rw [hquiet, Option.toList_none, List.nil_append, ← hbytes, List.append_assoc,
              List.append_assoc, ← List.append_assoc rest]
            exact (hmore.skip (rest ++ lost)).takes (block (r.step e).2)

theorem held_start {capture_bytes : ℕ}
    (hsize : 32 ≤ capture_bytes ∧ capture_bytes ≤ dataSize) : Held (start capture_bytes) :=
  framed_start hsize

/-- Whatever overflows, stalls, goes quiet or is restarted, in any order with the bytes, the
drains and the loop: the captures are excerpts of the stream of bytes, with at most one stretch
skipped for each fresh start. So each stands in the stream without a break, and none is doubled
or out of order. Only a capture cut off by an early end is shorter than the others, and it has
at least 32 bytes. Each is received, queued or counted as dropped. -/
theorem captures_excerpts {capture_bytes : ℕ}
    (hsize : 32 ≤ capture_bytes ∧ capture_bytes ≤ dataSize) (es : List Event) :
    Excerpts
        ((Machine.run Radio.step (start capture_bytes) es).1.overflows +
          (Machine.run Radio.step (start capture_bytes) es).1.stalls +
          (Machine.run Radio.step (start capture_bytes) es).1.quiet_ends + es.countP isRestart)
        (pieces (Machine.run Radio.step (start capture_bytes) es).2) (arrivals es) ∧
      (∀ p ∈ pieces (Machine.run Radio.step (start capture_bytes) es).2,
        p <:+: arrivals es ∧ 32 ≤ p.length ∧ p.length ≤ capture_bytes) ∧
      (pieces (Machine.run Radio.step (start capture_bytes) es).2).flatten.Sublist
        (arrivals es) ∧
      (Machine.run Radio.step (start capture_bytes) es).2.filterMap Shown.received ++
          (Machine.run Radio.step (start capture_bytes) es).1.queue =
        (captures (Machine.run Radio.step (start capture_bytes) es).2).filterMap took ∧
      (Machine.run Radio.step (start capture_bytes) es).1.queue_drops =
        (captures (Machine.run Radio.step (start capture_bytes) es).2).countP (fun e => !e.2) := by
  obtain ⟨-, -, hpieces, starts, hstarts, hexcerpts⟩ := run_held (held_start hsize) es
  obtain ⟨hqueue, hdrops⟩ := run_queued (start capture_bytes) es
  have hall := hexcerpts [] (fun _ => rfl)
  have hzero : freshStarts (start capture_bytes) = 0 := rfl
  rw [hzero, Nat.zero_add, freshStarts] at hstarts
  refine ⟨hstarts ▸ hall, fun p hp => ⟨hall.infix_of_mem hp, hpieces p hp⟩, hall.flatten_sublist,
    hqueue, hdrops.trans (Nat.zero_add _)⟩

/-- Twenty bytes, a restart, forty bytes and a drain that takes a capture of 32 of them. -/
def restartedStream : List Event :=
  (List.range 20).map (fun i => .arrive (BitVec.ofNat 8 i)) ++ [.restart] ++
    (List.range 40).map (fun i => .arrive (BitVec.ofNat 8 (100 + i))) ++
    [.drain 40000, .iterate 0 0, .iterate 0 0, .endEarly]

theorem captures_excerpts_restartedStream :
    (∀ p ∈ pieces (Machine.run Radio.step (start 32) restartedStream).2,
        p <:+: arrivals restartedStream ∧ 32 ≤ p.length ∧ p.length ≤ 32) ∧
      (pieces (Machine.run Radio.step (start 32) restartedStream).2).length = 1 :=
  ⟨(captures_excerpts (by decide) restartedStream).2.1, by decide +kernel⟩

end InsteonRf.Cc1101
