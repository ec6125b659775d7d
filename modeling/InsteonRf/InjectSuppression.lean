import InsteonRf.Inject

/-!
# Suppression of what the modem heard

The memory holds the latest report of each message. A run with nondecreasing times
loses a report in two ways only: by its age, or to a later report of the same
message.
-/
namespace InsteonRf
open OrderedDict

namespace Injector

def report : Op → Option (Key × Time)
  | .notePlm raw now =>
      match fromPlmBytes raw with
      | .error _ => none
      | .ok pkt => some (messageKey pkt, now)
  | .consider _ _ _ => none

def reports (ops : List Op) : List (Key × Time) := ops.filterMap report

def latest (key : Key) (past : List (Key × Time)) : Option Time :=
  ((past.filter (fun e => e.1 = key)).getLast?).map Prod.snd

/-- The modem reported the event's message within the window, at most ten seconds ago. -/
def Reported (window : Time) (past : List (Key × Time)) (event : FusedEvent) (now : Time) : Prop :=
  ∃ w, (event.key, w) ∈ past ∧ |w - event.last_seen| ≤ window ∧ now - w ≤ 10

/-- Where the event's message was so reported, its last report lies within the window too. -/
def Unmasked (window : Time) (past : List (Key × Time)) (event : FusedEvent) (now : Time) : Prop :=
  Reported window past event now →
    ∀ w ∈ latest event.key past, |w - event.last_seen| ≤ window

theorem latest_snoc (key : Key) (past : List (Key × Time)) (e : Key × Time) :
    latest key (past ++ [e]) = if e.1 = key then some e.2 else latest key past := by
  by_cases h : e.1 = key
  · simp [latest, h]
  · simp [latest, h]

/-- What the memory knows of the reports so far; `times` are the calls still to come. -/
structure MemoryInv (window : Time) (m : PlmMemory) (past : List (Key × Time))
    (times : List Time) : Prop where
  window_eq : m.window_s = window
  kept : ∀ key w, m.seen.get key = some w → latest key past = some w
  dropped : ∀ key w, m.seen.get key = none → (key, w) ∈ past → ∀ t ∈ times, 10 < t - w
  latest_ge : ∀ key w u, (key, w) ∈ past → latest key past = some u → w ≤ u
  before : ∀ e ∈ past, ∀ t ∈ times, e.2 ≤ t

variable {window : Time} {m : PlmMemory} {past : List (Key × Time)} {now : Time}
  {times : List Time}

theorem MemoryInv.tail (h : MemoryInv window m past (now :: times)) :
    MemoryInv window m past times :=
  ⟨h.window_eq, h.kept,
    fun key w hget hmem t ht => h.dropped key w hget hmem t (List.mem_cons_of_mem _ ht),
    h.latest_ge, fun e he t ht => h.before e he t (List.mem_cons_of_mem _ ht)⟩

/-- Forgetting drops a message only when all its reports are too old to count. -/
theorem MemoryInv.forgetOld (h : MemoryInv window m past (now :: times))
    (hsorted : ∀ t ∈ times, now ≤ t) :
    MemoryInv window (m.forgetOld now) past (now :: times) := by
  refine ⟨h.window_eq, ?_, ?_, h.latest_ge, h.before⟩
  · intro key w hget
    exact h.kept key w (Dict.get_filter.mp hget).1
  · intro key w hnone hmem t ht
    cases hget : m.seen.get key with
    | none => exact h.dropped key w hget hmem t ht
    | some u =>
        have hold : max m.window_s 10 < now - u := by
          by_contra hyoung
          have hstill : (m.forgetOld now).seen.get key = some u :=
            Dict.get_filter.mpr ⟨hget, by rw [decide_eq_false hyoung]; rfl⟩
          rw [hnone] at hstill
          cases hstill
        have hle : w ≤ u := h.latest_ge key w u hmem (h.kept key u hget)
        have hnow : now ≤ t := by
          rcases List.mem_cons.mp ht with rfl | hrest
          · exact le_refl t
          · exact hsorted t hrest
        have hten : (10 : ℚ) ≤ max m.window_s 10 := le_max_right _ _
        linarith

theorem MemoryInv.note (h : MemoryInv window m past (now :: times)) (hsorted : ∀ t ∈ times, now ≤ t)
    (raw : List Byte) :
    MemoryInv window (m.note raw now).1 (past ++ (report (.notePlm raw now)).toList) times := by
  cases hraw : fromPlmBytes raw with
  | error exc => simpa [PlmMemory.note, report, hraw] using h.tail
  | ok pkt =>
      have hnote : (m.note raw now).1 = { m with
          seen := m.seen.set (messageKey pkt) now, frames := m.frames + 1 } := by
        simp [PlmMemory.note, hraw]
      have hreport : (report (.notePlm raw now)).toList = [(messageKey pkt, now)] := by
        simp [report, hraw]
      rw [hnote, hreport]
      refine ⟨h.window_eq, ?_, ?_, ?_, ?_⟩
      · intro key w hget
        rw [latest_snoc]
        by_cases hk : messageKey pkt = key
        · subst hk
          rw [Dict.get_set_self] at hget
          rw [if_pos rfl, hget]
        · rw [Dict.get_set_of_ne _ (Ne.symm hk)] at hget
          rw [if_neg hk, h.kept key w hget]
      · intro key w hget hmem t ht
        have hk : messageKey pkt ≠ key := by
          rintro rfl
          rw [Dict.get_set_self] at hget
          cases hget
        rw [Dict.get_set_of_ne _ (Ne.symm hk)] at hget
        rcases List.mem_append.mp hmem with hold | hnew
        · exact h.tail.dropped key w hget hold t ht
        · simp only [List.mem_singleton, Prod.mk.injEq] at hnew
          exact absurd hnew.1.symm hk
      · intro key w u hmem hlast
        rw [latest_snoc] at hlast
        by_cases hk : messageKey pkt = key
        · rw [if_pos hk] at hlast
          obtain rfl := Option.some.inj hlast
          rcases List.mem_append.mp hmem with hold | hnew
          · exact h.before (key, w) hold now (by simp)
          · simp only [List.mem_singleton, Prod.mk.injEq] at hnew
            exact hnew.2.le
        · rw [if_neg hk] at hlast
          rcases List.mem_append.mp hmem with hold | hnew
          · exact h.latest_ge key w u hold hlast
          · simp only [List.mem_singleton, Prod.mk.injEq] at hnew
            exact absurd hnew.1.symm hk
      · intro e he t ht
        rcases List.mem_append.mp he with hold | hnew
        · exact h.tail.before e hold t ht
        · obtain rfl := List.mem_singleton.mp hnew
          exact hsorted t ht

theorem MemoryInv.heard (h : MemoryInv window m past (now :: times))
    (hsorted : ∀ t ∈ times, now ≤ t) {event : FusedEvent}
    (hreported : Reported window past event now) (hunmasked : Unmasked window past event now) :
    (m.forgetOld now).heard event.key event.last_seen = true := by
  have hinv := h.forgetOld hsorted
  have hlast := hunmasked hreported
  obtain ⟨w, hmem, -, hrecent⟩ := hreported
  cases hget : (m.forgetOld now).seen.get event.key with
  | none =>
      have hgone := hinv.dropped event.key w hget hmem now (by simp)
      linarith
  | some u =>
      have hnear : |event.last_seen - u| ≤ (m.forgetOld now).window_s := by
        rw [abs_sub_comm, hinv.window_eq]
        exact hlast u (hinv.kept event.key u hget)
      rw [PlmMemory.heard, hget]
      exact decide_eq_true hnear

theorem consider_memory (inj : Injector) (enabled : Bool) (event : FusedEvent) (now : Time) :
    (inj.consider enabled event now).1.memory = inj.memory.forgetOld now := by
  rcases inj.consider_cases enabled event now with
    ⟨saw, reason, hst⟩ | ⟨-, d, -, hst⟩ | ⟨c, frame, -, -, -, -, -, -, hst⟩ <;> rw [hst] <;> rfl

theorem memoryInv_run {inj : Injector} {ops : List Op} {later : List Time}
    (h : MemoryInv window inj.memory past (ops.map Op.time ++ later))
    (hsorted : (ops.map Op.time ++ later).Pairwise (· ≤ ·)) :
    MemoryInv window (inj.run ops).1.memory (past ++ reports ops) later := by
  induction ops generalizing inj past with
  | nil => simpa [reports, run] using h
  | cons op ops ih =>
      obtain ⟨hfirst, hrest⟩ := List.pairwise_cons.mp hsorted
      have hreports : reports (op :: ops) = (report op).toList ++ reports ops := by
        rw [reports, List.filterMap_cons]
        cases report op <;> rfl
      rw [hreports, ← List.append_assoc]
      refine ih ?_ hrest
      cases op with
      | notePlm raw now => exact MemoryInv.note h hfirst raw
      | consider enabled event now =>
          have hnone : (report (.consider enabled event now)).toList = [] := rfl
          rw [hnone, List.append_nil, step, consider_memory]
          exact (h.forgetOld hfirst).tail

/-- In every run with nondecreasing times in which no report within the window of a
considered event is masked by a later one, no injected event was so reported. -/
theorem run_no_double (cfg : InjectorConfig) (window : Time) (ops : List Op)
    (hsorted : (ops.map Op.time).Pairwise (· ≤ ·))
    (hunmasked : ∀ us enabled event now vs, ops = us ++ .consider enabled event now :: vs →
      Unmasked window (reports us) event now) :
    ∀ us enabled event now vs, ops = us ++ .consider enabled event now :: vs →
      (((new cfg (some { window_s := window })).run us).1.consider enabled event now).2.decision.inject
        = true →
      ¬ Reported window (reports us) event now := by
  intro us enabled event now vs heq hinject hreported
  have htimes : ops.map Op.time = us.map Op.time ++ now :: vs.map Op.time := by
    rw [heq, List.map_append, List.map_cons]
    rfl
  have hstart : MemoryInv window (new cfg (some { window_s := window })).memory []
      (us.map Op.time ++ now :: vs.map Op.time) :=
    ⟨rfl, by simp [new], by simp, by simp, by simp⟩
  rw [htimes] at hsorted
  have hinv := memoryInv_run hstart hsorted
  rw [List.nil_append] at hinv
  have hfirst := (List.pairwise_cons.mp (List.pairwise_append.mp hsorted).2.1).1
  have hheard := hinv.heard hfirst hreported (hunmasked us enabled event now vs heq)
  obtain ⟨c, -, hsilent⟩ := injected_cases hinject
  rw [begin_memory, hheard] at hsilent
  cases hsilent

def commandFrame : List Byte :=
  [0x02#8, 0x50#8, 0x29#8, 0x4E#8, 0x52#8, 0x2B#8, 0x93#8, 0x07#8, 0x0F#8, 0x11#8, 0x01#8]

def oldReport : List Op := [.notePlm commandFrame (1 / 2)]

theorem run_no_double_oldReport :
    (((new openConfig (some {})).run oldReport).1.consider true (commandEvent 40)
        41).2.decision.inject = true ∧
      ¬ Reported 2 (reports oldReport) (commandEvent 40) 41 := by
  have hinject : (((new openConfig (some {})).run oldReport).1.consider true (commandEvent 40)
      41).2.decision.inject = true := by decide +kernel
  refine ⟨hinject, run_no_double openConfig 2 (oldReport ++ [.consider true (commandEvent 40) 41])
    (by decide +kernel) ?_ oldReport true (commandEvent 40) 41 [] rfl hinject⟩
  intro us enabled event now vs heq hreported
  obtain ⟨w, hmem, hnear, -⟩ := hreported
  rcases us with _ | ⟨a, _ | ⟨b, us⟩⟩
  · simp [oldReport] at heq
  · simp only [oldReport, List.cons_append, List.nil_append, List.cons.injEq,
      Op.consider.injEq] at heq
    obtain ⟨rfl, ⟨-, rfl, -⟩, -⟩ := heq
    have hreports : reports [.notePlm commandFrame (1 / 2)] = [((commandEvent 40).key, 1 / 2)] := by
      decide +kernel
    rw [hreports, List.mem_singleton, Prod.mk.injEq] at hmem
    obtain ⟨-, rfl⟩ := hmem
    exact absurd hnear (by decide +kernel)
  · simp [oldReport] at heq

/-- Two reports of the command, the later one more than a window after its event. -/
def maskingReports : List Op := [.notePlm commandFrame (1 / 2), .notePlm commandFrame (13 / 5)]

/-- The event half a second from the first report is injected all the same. -/
theorem maskingReports_double :
    (((new openConfig (some {})).run maskingReports).1.consider true (commandEvent 0)
        3).2.decision.inject = true ∧
      (((new openConfig (some {})).run maskingReports).1.consider true (commandEvent 0)
        3).2.published.length = 1 ∧
      Reported 2 (reports maskingReports) (commandEvent 0) 3 :=
  ⟨by decide +kernel, by decide +kernel, 1 / 2, by decide +kernel, by decide +kernel,
    by decide +kernel⟩

end Injector

end InsteonRf
