import InsteonRf.BoardCounters
import InsteonRf.MqttReceiver

/-!
# From the boards' numbers to the receiver's gaps

A board numbers what it publishes and starts over when it boots. What reaches the receiver of a
board's messages is some of them, in their order. The gaps that the receiver counts are then
never more than the messages that were lost.
-/
namespace InsteonRf.Mqtt
open Board

/-- What happens from a boot at some clock on. -/
structure Uptime where
  started : BitVec 32
  events : List BoardEvent

def Uptime.shown (settings : Settings) (capture_bytes : ℕ) (u : Uptime) : List Reported :=
  (Machine.run (Listener.step settings) (Listener.boot capture_bytes u.started) u.events).2

def numbering (settings : Settings) (capture_bytes : ℕ) (uptimes : List Uptime) : List ℤ :=
  uptimes.flatMap (fun u =>
    (publishedOf (u.shown settings capture_bytes)).map (fun p => (p.seq.toNat : ℤ)))

def numberOf (k : ℕ) : ℤ := ((BitVec.ofNat 32 (k + 1)).toNat : ℤ)

theorem uptime_numbers (settings : Settings) (capture_bytes : ℕ) (u : Uptime) :
    (publishedOf (u.shown settings capture_bytes)).map (fun p => (p.seq.toNat : ℤ)) =
      (List.range (if settings.mqtt then passedCount settings (u.shown settings capture_bytes)
        else 0)).map numberOf := by
  have h := (Books.run settings capture_bytes u.started u.events).counted.published
  have hmap : ∀ l : List Publication, l.map (fun p => (p.seq.toNat : ℤ)) =
      (l.map Publication.seq).map (fun b => (b.toNat : ℤ)) := by
    intro l
    rw [List.map_map]
    rfl
  rw [hmap, Uptime.shown, h]
  split_ifs
  · exact List.map_map
  · rfl

theorem numberOf_succ (k : ℕ) : ¬ Skips (numberOf k) (numberOf (k + 1)) := by
  rw [Skips, numberOf, numberOf, BitVec.toNat_ofNat, BitVec.toNat_ofNat]
  omega

theorem range_numbers (n : ℕ) : ((List.range n).map numberOf).IsChain (fun a b => ¬ Skips a b) := by
  rw [List.isChain_map, List.isChain_iff_getElem]
  intro i hi
  rw [List.getElem_range, List.getElem_range]
  exact numberOf_succ i

theorem numbering_head {settings : Settings} {capture_bytes : ℕ}
    {uptimes : List Uptime} {b : ℤ}
    (hb : b ∈ (numbering settings capture_bytes uptimes).head?) : b = 1 := by
  induction uptimes with
  | nil => cases hb
  | cons u uptimes ih =>
      rw [numbering, List.flatMap_cons, uptime_numbers, List.head?_append] at hb
      generalize (if settings.mqtt then passedCount settings (u.shown settings capture_bytes)
        else 0) = n at hb
      cases n with
      | zero => exact ih hb
      | succ n =>
          rw [List.range_succ_eq_map, List.map_cons, List.head?_cons, Option.some_or] at hb
          exact (Option.some.inj hb).symm

/-- Neither within an uptime nor behind a boot does a board leave a number out. -/
theorem numbering_unbroken (settings : Settings) (capture_bytes : ℕ)
    (uptimes : List Uptime) :
    Adjacent.count Skips (numbering settings capture_bytes uptimes) = 0 := by
  rw [Adjacent.count_eq_zero_iff]
  induction uptimes with
  | nil => exact List.isChain_nil
  | cons u uptimes ih =>
      rw [numbering, List.flatMap_cons, uptime_numbers, List.isChain_append]
      refine ⟨range_numbers _, ih, fun a ha b hb => ?_⟩
      obtain ⟨k, -, rfl⟩ := List.mem_map.mp (List.mem_of_mem_getLast? ha)
      obtain rfl := numbering_head hb
      rw [Skips, numberOf]
      omega

/-- Where a board's messages reach the receiver in their order, no more gaps are counted in them
than messages were lost. -/
theorem skips_of_delivered {settings : Settings} {capture_bytes : ℕ}
    {uptimes : List Uptime} {seqs : List ℤ}
    (h : seqs.Sublist (numbering settings capture_bytes uptimes)) :
    Adjacent.count Skips seqs + seqs.length ≤
      (numbering settings capture_bytes uptimes).length := by
  have hcount := Adjacent.count_sublist Skips h
  rwa [numbering_unbroken, Nat.zero_add] at hcount

theorem le_of_mem_consecutive {x y : ℤ} {m : List ℤ}
    (hm : (x :: m).IsChain (fun a b => b = a + 1)) (hy : y ∈ m) : x + 1 ≤ y := by
  induction m generalizing x with
  | nil => cases hy
  | cons z m ih =>
      rw [List.isChain_cons_cons] at hm
      rcases List.mem_cons.mp hy with rfl | hy
      · exact hm.1.ge
      · have hle := ih hm.2 hy
        have hz := hm.1
        omega

/-- Numbers out of consecutive ones that leave none out are a stretch of them. -/
theorem prefix_of_unbroken {x : ℤ} {l m : List ℤ} (hm : (x :: m).IsChain (fun a b => b = a + 1))
    (h : l.Sublist m) (hl : (x :: l).IsChain (fun a b => ¬ Skips a b)) : x :: l <+: x :: m := by
  induction m generalizing x l with
  | nil =>
      obtain rfl := List.sublist_nil.mp h
      exact List.prefix_rfl
  | cons z m ih =>
      cases l with
      | nil => exact ⟨z :: m, rfl⟩
      | cons y l =>
          rw [List.isChain_cons_cons] at hl
          have hle := le_of_mem_consecutive hm (h.subset List.mem_cons_self)
          rw [List.isChain_cons_cons] at hm
          have hclose : ¬ y > x + 1 := hl.1
          have hz := hm.1
          obtain rfl : y = z := by omega
          rw [List.prefix_cons_inj]
          exact ih hm.2 (List.cons_sublist_cons.mp h) hl.2

theorem infix_of_unbroken {l m : List ℤ} (hm : m.IsChain (fun a b => b = a + 1))
    (h : l.Sublist m) (hl : l.IsChain (fun a b => ¬ Skips a b)) : l <:+: m := by
  induction h with
  | slnil => exact List.infix_rfl
  | cons x _ ih => exact (ih hm.of_cons hl).trans (List.suffix_cons x _).isInfix
  | cons_cons x h _ => exact (prefix_of_unbroken hm h hl).isInfix

theorem range_consecutive {n : ℕ} (hn : n < 2 ^ 32) :
    ((List.range n).map numberOf).IsChain (fun a b => b = a + 1) := by
  rw [List.isChain_map, List.isChain_iff_getElem]
  intro i hi
  rw [List.length_range] at hi
  rw [List.getElem_range, List.getElem_range, numberOf, numberOf, BitVec.toNat_ofNat,
    BitVec.toNat_ofNat, Nat.mod_eq_of_lt (by omega), Nat.mod_eq_of_lt (by omega)]
  push_cast
  ring

section
variable (b64decode : String → Option (List Byte)) (loads : String → Option Json)
  (decimal : Char → Option ℕ)

/-- Where each board's messages reach the receiver in their order, the receiver counts no more gaps
than messages were lost, over any number of boots and boards. Where it counts none, what it got of
a board that booted once and did not wrap is a stretch without a break. -/
theorem gaps_within_losses (settings : String → Settings) (capture_bytes : String → ℕ)
    (uptimes : String → List Uptime) (maxsize : ℕ) (ds : List Delivery)
    (names : List String) (hnames : names.Nodup)
    (hcover : ∀ c ∈ arrived b64decode loads decimal ds, c.receiver ∈ names)
    (hdelivered : ∀ n ∈ names, (seqsOf n (arrived b64decode loads decimal ds)).Sublist
      (numbering (settings n) (capture_bytes n) (uptimes n))) :
    let gaps := (Machine.run (MqttReceiver.step b64decode loads decimal) { maxsize } ds).1.gaps
    gaps + (names.map (fun n => (seqsOf n (arrived b64decode loads decimal ds)).length)).sum ≤
        (names.map (fun n =>
          (numbering (settings n) (capture_bytes n) (uptimes n)).length)).sum ∧
      (gaps = 0 → ∀ n ∈ names, ∀ u, uptimes n = [u] →
        (numbering (settings n) (capture_bytes n) (uptimes n)).length < 2 ^ 32 →
        seqsOf n (arrived b64decode loads decimal ds) <:+:
          numbering (settings n) (capture_bytes n) (uptimes n)) := by
  have haccounted : Accounted maxsize
      (Machine.run (MqttReceiver.step b64decode loads decimal) { maxsize } ds).1
      (Machine.run (MqttReceiver.step b64decode loads decimal) { maxsize } ds).2 := run_accounted maxsize ds
  have hparsed : (Machine.run (MqttReceiver.step b64decode loads decimal) { maxsize } ds).2.filterMap
      Shown.parsed = arrived b64decode loads decimal ds := parsed_run _ ds
  have hgaps := haccounted.gaps names hnames
  rw [hparsed] at hgaps
  have hskips := hgaps hcover
  intro gaps
  constructor
  · rw [show gaps = _ from hskips, skipsOf, ← List.sum_map_add]
    exact List.sum_le_sum (fun n hn => skips_of_delivered (hdelivered n hn))
  · intro hnone n hn u hu hwrap
    have hzero : Adjacent.count Skips (seqsOf n (arrived b64decode loads decimal ds)) = 0 := by
      have hsum : skipsOf names (arrived b64decode loads decimal ds) = 0 := hskips.symm.trans hnone
      rw [skipsOf, List.sum_eq_zero_iff] at hsum
      exact hsum _ (List.mem_map_of_mem hn)
    refine infix_of_unbroken ?_ (hdelivered n hn) ((Adjacent.count_eq_zero_iff Skips).mp hzero)
    rw [numbering, hu, List.flatMap_singleton, uptime_numbers] at hwrap ⊢
    rw [List.length_map, List.length_range] at hwrap
    exact range_consecutive hwrap

end

/-- A board that publishes three captures. -/
def threeCaptures : Uptime where
  started := 0
  events := (List.replicate 4 (List.replicate 32 (.task (.arrive 0x55)) ++
    [.task (.drain 40000), .task (.iterate 0x40 0), .receive ⟨0, 0, 0⟩])).flatten

def oneByteGate : Settings := { manchester_gate := 1 }

theorem numbering_threeCaptures : numbering oneByteGate 32 [threeCaptures] = [1, 2, 3] := by
  have hcount : passedCount oneByteGate
      (threeCaptures.shown oneByteGate 32) = 3 := by
    decide +kernel
  rw [numbering, List.flatMap_singleton, uptime_numbers, hcount]
  decide

/-- What the board sends, with one byte of each capture. -/
def numberedText (seq : ℕ) : String :=
  "\x7b\"n\":\"up\",\"seq\":" ++ toString seq ++ ",\"b\":\"AA==\"\x7d"

def numberedRecord (seq : ℤ) : List (String × Json) :=
  [("n", .str "up"), ("seq", .int seq), ("b", .str "AA==")]

/-- `json.loads` on the two messages that arrive. -/
def numberedLoads (text : String) : Option Json :=
  if text = numberedText 1 then some (.object (numberedRecord 1))
  else if text = numberedText 3 then some (.object (numberedRecord 3))
  else none

def numberedDelivery (seq : ℕ) : Delivery :=
  .message "insteon-rf/rx/up" (numberedText seq).toByteArray 0

theorem captureOf_numbered {seq : ℕ} (hloads : numberedLoads (numberedText seq) =
    some (.object (numberedRecord seq))) :
    ∃ c, captureOf Base64.decodeText numberedLoads (fun _ => none) (numberedDelivery seq) = some c ∧
      c.receiver = "up" ∧ c.seq = some (seq : ℤ) := by
  have hblob : Json.field (numberedRecord seq) "b" = .str "AA==" := rfl
  have haccepted : accepted Base64.decodeText numberedLoads (numberedText seq).toByteArray =
      some (numberedRecord seq, [0#8]) :=
    accepted_of_record Base64.decodeText numberedLoads hloads hblob (by decide) (by decide) (by decide)
  have hparsed : ∃ c, fromPayload Base64.decodeText numberedLoads (fun _ => none) "insteon-rf/rx/up"
      (numberedText seq).toByteArray 0 = .ok (some c) ∧ c.receiver = "up" ∧ c.seq = some (seq : ℤ) := by
    rw [fromPayload, haccepted]
    exact ⟨_, rfl, rfl, rfl⟩
  obtain ⟨c, hc, hname, hseq⟩ := hparsed
  exact ⟨c, by simp only [captureOf, numberedDelivery, hc], hname, hseq⟩

/-- The second of three messages is lost, and the receiver counts the gap. -/
theorem gaps_within_losses_threeCaptures :
    (Machine.run (MqttReceiver.step Base64.decodeText numberedLoads (fun _ => none)) { maxsize := 4096 }
        [numberedDelivery 1, numberedDelivery 3]).1.gaps + 2 ≤ 3 := by
  have hloads : ∀ seq : ℕ, seq = 1 ∨ seq = 3 → numberedLoads (numberedText seq) =
      some (.object (numberedRecord seq)) := by
    rintro seq (rfl | rfl)
    · rfl
    · rfl
  obtain ⟨c, hc, hname, hseq⟩ := captureOf_numbered (hloads 1 (Or.inl rfl))
  obtain ⟨d, hd, hname', hseq'⟩ := captureOf_numbered (hloads 3 (Or.inr rfl))
  have harrived : arrived Base64.decodeText numberedLoads (fun _ => none) [numberedDelivery 1, numberedDelivery 3] =
      [c, d] := by
    rw [arrived, List.filterMap_cons_some hc, List.filterMap_cons_some hd, List.filterMap_nil]
  have hseqs : seqsOf "up" [c, d] = [1, 3] := by
    simp [seqsOf, hname, hname', hseq, hseq']
  have h := gaps_within_losses Base64.decodeText numberedLoads (fun _ => none) (fun _ => oneByteGate)
    (fun _ => 32) (fun _ => [threeCaptures]) 4096 [numberedDelivery 1, numberedDelivery 3] ["up"]
    (List.nodup_singleton _) (by simp [harrived, hname, hname'])
    (by simp [harrived, hseqs, numbering_threeCaptures])
  simpa only [harrived, hseqs, numbering_threeCaptures, List.map_cons, List.map_nil, List.sum_singleton,
    List.length_cons, List.length_nil] using h.1

end InsteonRf.Mqtt
