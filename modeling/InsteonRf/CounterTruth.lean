import InsteonRf.Capture

/-!
# What a verified counter flag is worth

Four producers say that a packet's frame counters were verified. The hard decoder has
compared every one of them; recovery says so with a wrong one among them, or with a kind
of packet they do not belong to.
-/
namespace InsteonRf
open Recover SignedIndex

theorem countP_zip_ne {l m : List ℕ} (h : l.length ≤ m.length) :
    (l.zip m).countP (fun c => c.1 != c.2) = 0 ↔ l = m.take l.length := by
  induction l generalizing m with
  | nil => simp
  | cons a l ih =>
      cases m with
      | nil => simp at h
      | cons b m =>
          rw [List.zip_cons_cons, List.countP_cons, Nat.add_eq_zero_iff,
            ih (by simpa using h), List.length_cons, List.take_succ_cons, List.cons.injEq]
          by_cases hab : a = b <;> simp [hab]

/-- The counters the hard decoder reads from the header at `pos` are those this packet
must carry. -/
def DecodedCounters (bits : Bits) (pos : ℕ) (p : Packet) : Prop :=
  (decodeFrames bits (pos + markerOffset)).1 = p.data ∧
    (decodeFrames bits (pos + markerOffset)).2 = (expectedIndexes p.extended).take p.data.length

theorem decodedCounters_of_parseAt {bits : Bits} {ts : Option Time} {minBytes pos : ℕ} {p : Packet}
    (h : parseAt bits ts minBytes pos = some p) (hok : p.index_ok = some true) :
    DecodedCounters bits pos p := by
  obtain ⟨hdata, -, -, hindex⟩ := parseAt_eq_some h
  rw [hindex, Option.some.injEq] at hok
  have hcount : (decodeFrames bits (pos + markerOffset)).2.length = p.data.length := by
    rw [hdata]
    simp [decodeFrames]
  refine ⟨hdata.symm, ?_⟩
  rw [indexesOk_iff hok, hcount]
  rfl

@[simp] theorem length_countersFrom (values : List Bool) (nframes : ℕ) :
    (countersFrom values nframes).length = nframes := by
  simp [countersFrom]

theorem indexErrors_eq_zero (values : List Bool) {nframes : ℕ} {extended : Bool}
    (h : nframes ≤ fullLen extended) :
    indexErrors values nframes extended = 0 ↔
      countersFrom values nframes = (expectedIndexes extended).take nframes := by
  rw [indexErrors, countP_zip_ne (by rw [length_countersFrom, length_expectedIndexes]; exact h),
    length_countersFrom]

/-- Recovery lets no wrong counter pass at `pos`: it is told to allow none, or the bytes as
first read fail their checks and only a repair can answer. -/
def Strict (sym : List ℚ) (pos : ℤ) (o : RecoverOptions) : Prop :=
  o.max_index_errors ≤ 0 ∨ ∀ extended all, readPacket sym pos = .ok (some (extended, all)) →
    crcOk (bytesFrom (all.map Reading.value) (all.length / frameLogicalBits)) extended = false

/-- A repair is accepted only where every counter was right before it. -/
theorem search_counters {values : List Bool} {conf : List ℚ} {nframes : ℕ} {extended : Bool}
    {max_flips candidates : ℤ} {combo : List ℕ}
    (h : search values conf nframes extended max_flips candidates = some combo) :
    indexErrors values nframes extended = 0 := by
  obtain ⟨hpass, hnodup, hbits⟩ := search_some h
  rw [passes, Bool.and_eq_true] at hpass
  have hclean := of_decide_eq_true hpass.2
  rwa [indexErrors, countersFrom_flipAt hnodup (fun p hp => (hbits p hp).1)] at hclean

theorem strict_of_search {sym : List ℚ} {pos : ℕ} {o : RecoverOptions} (combo : List ℕ)
    (h : (readPacketAt sym pos).map (fun f =>
      let values := f.2.map Reading.value
      let nframes := f.2.length / frameLogicalBits
      (crcOk (bytesFrom values nframes) f.1,
        search values (f.2.map Reading.conf) nframes f.1 o.max_flips o.candidates)) =
      some (false, some combo))
    (hext : extPosition ∉ combo) : Strict sym pos o ∧ ¬ FlipsExt sym pos o := by
  obtain ⟨⟨extended, all⟩, hread, hfound⟩ := Option.map_eq_some_iff.mp h
  obtain ⟨hcrc, hsearch⟩ := Prod.mk.inj hfound
  rw [Strict, FlipsExt, readPacket_natCast, hread]
  constructor
  · right
    intro e l hsame
    obtain ⟨rfl, rfl⟩ : extended = e ∧ all = l := by simpa using hsame
    exact hcrc
  · rintro ⟨e, l, found, hsame, -, -, -, hsearch', hmem, -⟩
    obtain ⟨rfl, rfl⟩ : extended = e ∧ all = l := by simpa using hsame
    obtain rfl : combo = found := Option.some.inj (hsearch.symm.trans hsearch')
    exact hext hmem

end InsteonRf
