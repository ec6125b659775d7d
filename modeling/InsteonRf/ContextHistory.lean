import InsteonRf.Context

/-!
# What the tracker's answers mean

The table keeps one query for each sender, target and command and forgets the old ones on
every call. A reply is answered as a search through everything heard before would have it.
-/
namespace InsteonRf
open OrderedDict

namespace Address

theorem hexDigit_injective {m n : ℕ} (hm : m < 16) (hn : n < 16) (h : hexDigit m = hexDigit n) :
    m = n := by
  have hall : ∀ i j : Fin 16, hexDigit i = hexDigit j → i = j := by decide
  exact Fin.mk.inj_iff.mp (hall ⟨m, hm⟩ ⟨n, hn⟩ h)

theorem bytes_injective {a b : Address} (h : a.bytes = b.bytes) : a = b := by
  obtain ⟨v⟩ := a
  obtain ⟨w⟩ := b
  simp only [bytes, List.cons.injEq, and_true] at h
  obtain ⟨h₁, h₂, h₃⟩ := h
  have hhigh := congrArg BitVec.toNat h₁
  have hmid := congrArg BitVec.toNat h₂
  have hlow := congrArg BitVec.toNat h₃
  simp only [BitVec.toNat_setWidth, BitVec.toNat_ushiftRight, Nat.shiftRight_eq_div_pow] at hhigh hmid hlow
  have hv := v.isLt
  have hw := w.isLt
  rw [Address.mk.injEq]
  apply BitVec.eq_of_toNat_eq
  omega

theorem str_injective {a b : Address} (h : a.str = b.str) : a = b := by
  have htwo : ∀ x y : Byte, hexDigit (x.toNat / 16) = hexDigit (y.toNat / 16) →
      hexDigit (x.toNat % 16) = hexDigit (y.toNat % 16) → x = y := by
    intro x y hdiv hmod
    have hx := x.isLt
    have hy := y.isLt
    have hd := hexDigit_injective (by omega) (by omega) hdiv
    have hm := hexDigit_injective (by omega) (by omega) hmod
    apply BitVec.eq_of_toNat_eq
    omega
  obtain ⟨x₁, x₂, x₃, hx⟩ : ∃ x₁ x₂ x₃, a.bytes = [x₁, x₂, x₃] := ⟨_, _, _, rfl⟩
  obtain ⟨y₁, y₂, y₃, hy⟩ : ∃ y₁ y₂ y₃, b.bytes = [y₁, y₂, y₃] := ⟨_, _, _, rfl⟩
  have hlist := congrArg String.toList h
  rw [str, str, hx, hy] at hlist
  have hdot : ".".toList = ['.'] := rfl
  simp only [List.map_cons, List.map_nil, String.intercalate_cons_cons,
    String.intercalate_singleton, String.toList_append, String.toList_ofList, List.cons_append,
    List.nil_append, hdot, List.cons.injEq, true_and, and_true] at hlist
  obtain ⟨hd₁, hm₁, hd₂, hm₂, hd₃, hm₃⟩ := hlist
  apply bytes_injective
  rw [hx, hy, htwo x₁ y₁ hd₁ hm₁, htwo x₂ y₂ hd₂ hm₂, htwo x₃ y₃ hd₃ hm₃]

end Address

abbrev Observed := Packet × Time

namespace Observed

def time (e : Observed) : Time := e.1.timestamp.getD e.2

def isQuery (sender target : Address) (cmd1 : Byte) (e : Observed) : Bool :=
  !e.1.ack && decide (e.1.fromAddr = some sender) && decide (e.1.toAddr = some target) &&
    decide (e.1.cmd1 = some cmd1)

end Observed

/-- The last command from `sender` to `target` among all that was heard before. -/
def latestQuery (before : List Observed) (sender target : Address) (cmd1 : Byte) :
    Option Observed :=
  before.reverse.find? (Observed.isQuery sender target cmd1)

/-- The kind of the query that a reply answers: none for a packet that is no reply, and inside
it none where no query in the window explains it. -/
def replyKind (window_s : Time) (before : List Observed) (e : Observed) : Option (Option Bool) :=
  match e.1.ack, e.1.toAddr, e.1.fromAddr, e.1.cmd1 with
  | true, some target, some sender, some cmd1 =>
      some ((latestQuery before target sender cmd1).bind
        (fun q => if e.time - q.time ≤ window_s then some q.1.extended else none))
  | _, _, _, _ => none

def marked (p : Packet) : Option (Option Bool) → Packet
  | some (some extended) => { p with ack_of_extended := some extended }
  | _ => p

/-- The kinds of a sequence of packets, each by what was heard before it. -/
def replyKinds (window_s : Time) : List Observed → List Observed → List (Option (Option Bool))
  | _, [] => []
  | before, e :: rest =>
      replyKind window_s before e :: replyKinds window_s (before ++ [e]) rest

theorem latestQuery_concat (before : List Observed) (e : Observed) (sender target : Address)
    (cmd1 : Byte) :
    latestQuery (before ++ [e]) sender target cmd1 =
      if e.isQuery sender target cmd1 then some e else latestQuery before sender target cmd1 := by
  rw [latestQuery, List.reverse_append, List.reverse_singleton, List.singleton_append,
    List.find?_cons]
  cases e.isQuery sender target cmd1 <;> rfl

namespace CommandTracker

theorem get_expire {t : CommandTracker} {now : Time} {k : String × String × Byte} :
    (t.expire now).queries.get k =
      (t.queries.get k).bind (fun q => if now - q.1 ≤ t.window_s then some q else none) := by
  ext q
  rw [expire, Dict.get_filter]
  cases h : t.queries.get k with
  | none => simp
  | some r =>
      by_cases hr : now - r.1 ≤ t.window_s
      · simp only [Option.bind_some, hr, if_true, Option.some.injEq]
        constructor
        · exact fun hq => hq.1
        · rintro rfl
          simp [hr]
      · simp only [Option.bind_some, hr, if_false, reduceCtorEq, iff_false]
        rintro ⟨hq, hlate⟩
        obtain rfl := Option.some.inj hq
        simp [not_le.mp hr] at hlate

/-- Whenever the next packet comes, the table has what a search through the history finds. -/
def Tracks (t : CommandTracker) (before : List Observed) (now : Time) : Prop :=
  ∀ later, now ≤ later → ∀ sender target cmd1,
    (t.expire later).queries.get (sender.str, target.str, cmd1) =
      (latestQuery before sender target cmd1).bind
        (fun q => if later - q.time ≤ t.window_s then some (q.time, q.1.extended) else none)

theorem tracks_fresh (window_s now : Time) : ({ window_s } : CommandTracker).Tracks [] now := by
  intro later _ sender target cmd1
  rw [get_expire]
  rfl

/-- Forgetting early what is forgotten later anyway makes no difference. -/
theorem get_expire_expire {t : CommandTracker} {now later : Time} (h : now ≤ later)
    (k : String × String × Byte) :
    (((t.expire now).queries.get k).bind
      (fun q => if later - q.1 ≤ t.window_s then some q else none)) =
        (t.expire later).queries.get k := by
  rw [get_expire, get_expire]
  cases t.queries.get k with
  | none => rfl
  | some q =>
      by_cases hq : now - q.1 ≤ t.window_s
      · simp only [Option.bind_some, hq, if_true]
      · have hlater : ¬ later - q.1 ≤ t.window_s := by
          intro hle
          exact hq (by linarith)
        simp only [Option.bind_some, hq, hlater, if_false, Option.bind_none]

theorem Tracks.keep {t t' : CommandTracker} {before : List Observed} {now : Time} {e : Observed}
    (h : t.Tracks before now) (hnow : now ≤ e.time)
    (hqueries : t'.queries = (t.expire e.time).queries) (hwindow : t'.window_s = t.window_s)
    (hother : ∀ sender target cmd1, e.isQuery sender target cmd1 = false) :
    t'.Tracks (before ++ [e]) e.time := by
  intro later hlater sender target cmd1
  rw [latestQuery_concat, hother, if_neg Bool.false_ne_true, get_expire, hqueries, hwindow,
    get_expire_expire hlater]
  exact h later (hnow.trans hlater) sender target cmd1

theorem Tracks.query {t t' : CommandTracker} {before : List Observed} {now : Time} {e : Observed}
    (h : t.Tracks before now) (hnow : now ≤ e.time) {sender target : Address} {cmd1 : Byte}
    (hqueries : t'.queries = (t.expire e.time).queries.set (sender.str, target.str, cmd1)
      (e.time, e.1.extended)) (hwindow : t'.window_s = t.window_s)
    (hself : ∀ s d c, e.isQuery s d c = decide (s = sender ∧ d = target ∧ c = cmd1)) :
    t'.Tracks (before ++ [e]) e.time := by
  intro later hlater s d c
  rw [latestQuery_concat, hself, get_expire, hqueries, hwindow]
  by_cases hsame : s = sender ∧ d = target ∧ c = cmd1
  · obtain ⟨rfl, rfl, rfl⟩ := hsame
    simp
  · have hkey : (s.str, d.str, c) ≠ (sender.str, target.str, cmd1) := by
      intro heq
      obtain ⟨hs, hrest⟩ := Prod.mk.inj heq
      obtain ⟨hd, hc⟩ := Prod.mk.inj hrest
      exact hsame ⟨Address.str_injective hs, Address.str_injective hd, hc⟩
    rw [Dict.get_set_of_ne _ hkey, get_expire_expire hlater, if_neg (by simpa using hsame)]
    exact h later (hnow.trans hlater) s d c

/-- How many replies a kind counts as, of those explained and of those not. -/
def resolvedBy : Option (Option Bool) → ℕ
  | some (some _) => 1
  | _ => 0

def unresolvedBy : Option (Option Bool) → ℕ
  | some none => 1
  | _ => 0

structure Observes (t : CommandTracker) (before : List Observed) (e : Observed)
    (r : CommandTracker × Packet) : Prop where
  window_s : r.1.window_s = t.window_s
  tracks : r.1.Tracks (before ++ [e]) e.time
  packet : r.2 = marked e.1 (replyKind t.window_s before e)
  resolved : r.1.resolved = t.resolved + resolvedBy (replyKind t.window_s before e)
  unresolved : r.1.unresolved = t.unresolved + unresolvedBy (replyKind t.window_s before e)

/-- A reply is answered with what the table has. -/
theorem replyKind_eq {t : CommandTracker} {before : List Observed} {now : Time} {e : Observed}
    (h : t.Tracks before now) (hnow : now ≤ e.time) (hack : e.1.ack = true)
    {target sender : Address} {cmd1 : Byte} (hto : e.1.toAddr = some target)
    (hfrom : e.1.fromAddr = some sender) (hcmd : e.1.cmd1 = some cmd1) :
    replyKind t.window_s before e =
      some (((t.expire e.time).queries.get (target.str, sender.str, cmd1)).map Prod.snd) := by
  rw [replyKind]
  simp only [hack, hto, hfrom, hcmd]
  rw [h _ hnow target sender cmd1]
  cases latestQuery before target sender cmd1 with
  | none => rfl
  | some q =>
      simp only [Option.bind_some]
      split_ifs <;> rfl

theorem observe_query {pkt : Packet} (hack : pkt.ack = false) {target sender : Address}
    {cmd1 : Byte} (hto : pkt.toAddr = some target) (hfrom : pkt.fromAddr = some sender)
    (hcmd : pkt.cmd1 = some cmd1) (t : CommandTracker) (clock : Time) :
    t.observe pkt clock =
      ({ t.expire (pkt.timestamp.getD clock) with
          queries := (t.expire (pkt.timestamp.getD clock)).queries.set
            (sender.str, target.str, cmd1) (pkt.timestamp.getD clock, pkt.extended) }, pkt) := by
  simp only [observe, hcmd, hto, hfrom, hack, Bool.false_eq_true, if_false]

theorem observe_incomplete {pkt : Packet}
    (h : pkt.toAddr = none ∨ pkt.fromAddr = none ∨ pkt.cmd1 = none) (t : CommandTracker)
    (clock : Time) : t.observe pkt clock = (t.expire (pkt.timestamp.getD clock), pkt) := by
  simp only [observe, annotate]
  cases hcmd : pkt.cmd1 with
  | none => rfl
  | some cmd1 =>
      cases hto : pkt.toAddr with
      | none => rfl
      | some target =>
          have hfrom : pkt.fromAddr = none := by simpa [hto, hcmd] using h
          simp only [hfrom]
          split_ifs <;> rfl

theorem Observes.of_kind {t : CommandTracker} {before : List Observed} {e : Observed}
    {r : CommandTracker × Packet} {kind : Option (Option Bool)}
    (hkind : replyKind t.window_s before e = kind) (hwindow : r.1.window_s = t.window_s)
    (htracks : r.1.Tracks (before ++ [e]) e.time) (hpacket : r.2 = marked e.1 kind)
    (hresolved : r.1.resolved = t.resolved + resolvedBy kind)
    (hunresolved : r.1.unresolved = t.unresolved + unresolvedBy kind) : t.Observes before e r := by
  subst hkind
  exact ⟨hwindow, htracks, hpacket, hresolved, hunresolved⟩

theorem observe_observes {t : CommandTracker} {before : List Observed} {now : Time} {e : Observed}
    (h : t.Tracks before now) (hnow : now ≤ e.time) : t.Observes before e (t.observe e.1 e.2) := by
  by_cases hpartial : e.1.toAddr = none ∨ e.1.fromAddr = none ∨ e.1.cmd1 = none
  · have hother : ∀ s d c, e.isQuery s d c = false := by
      intro s d c
      rcases hpartial with hnone | hnone | hnone <;> simp [Observed.isQuery, hnone]
    have hkind : replyKind t.window_s before e = none := by
      unfold replyKind
      split
      · next target sender cmd1 _ hto hfrom hcmd => simp [hto, hfrom, hcmd] at hpartial
      · rfl
    rw [observe_incomplete hpartial]
    exact .of_kind hkind rfl (h.keep hnow rfl rfl hother) rfl rfl rfl
  · simp only [not_or, ← ne_eq, Option.ne_none_iff_exists'] at hpartial
    obtain ⟨⟨target, hto⟩, ⟨sender, hfrom⟩, cmd1, hcmd⟩ := hpartial
    cases hack : e.1.ack with
    | true =>
        have hother : ∀ s d c, e.isQuery s d c = false := by
          intro s d c
          simp [Observed.isQuery, hack]
        have hkind := replyKind_eq h hnow hack hto hfrom hcmd
        rw [observe_reply hack hto hfrom hcmd]
        change t.Observes before e ((t.expire e.time).answer e.1
          ((t.expire e.time).queries.get (target.str, sender.str, cmd1)))
        cases hget : (t.expire e.time).queries.get (target.str, sender.str, cmd1) with
        | none =>
            rw [hget] at hkind
            exact .of_kind hkind rfl (h.keep hnow rfl rfl hother) rfl rfl rfl
        | some hit =>
            rw [hget] at hkind
            exact .of_kind hkind rfl (h.keep hnow rfl rfl hother) rfl rfl rfl
    | false =>
        have hself : ∀ s d c, e.isQuery s d c = decide (s = sender ∧ d = target ∧ c = cmd1) := by
          intro s d c
          simp only [Observed.isQuery, hack, hto, hfrom, hcmd, Option.some.injEq, Bool.not_false,
            Bool.true_and, Bool.decide_and, eq_comm, Bool.and_assoc]
        have hkind : replyKind t.window_s before e = none := by
          rw [replyKind]
          simp only [hack]
        rw [observe_query hack hto hfrom hcmd]
        exact .of_kind hkind rfl (h.query hnow rfl rfl hself) rfl rfl rfl

theorem run_observes {t : CommandTracker} {before : List Observed} {now : Time}
    (h : t.Tracks before now) {packets : List Observed} (hnow : ∀ e ∈ packets, now ≤ e.time)
    (hordered : packets.Pairwise (fun a b => a.time ≤ b.time)) :
    (t.run packets).2 =
        packets.zipWith (fun e kind => marked e.1 kind) (replyKinds t.window_s before packets) ∧
      (t.run packets).1.resolved =
        t.resolved + ((replyKinds t.window_s before packets).map resolvedBy).sum ∧
      (t.run packets).1.unresolved =
        t.unresolved + ((replyKinds t.window_s before packets).map unresolvedBy).sum := by
  induction packets generalizing t before now with
  | nil => exact ⟨rfl, rfl, rfl⟩
  | cons e packets ih =>
      obtain ⟨hfirst, hrest⟩ := List.pairwise_cons.mp hordered
      have hstep := observe_observes h (hnow e List.mem_cons_self)
      obtain ⟨hout, hresolved, hunresolved⟩ := ih hstep.tracks hfirst hrest
      rw [hstep.window_s] at hout hresolved hunresolved
      rw [run] at hout hresolved hunresolved
      simp only [run, Machine.run_cons, replyKinds, List.map_cons, List.sum_cons]
      refine ⟨?_, ?_, ?_⟩
      · rw [hout, hstep.packet]
        rfl
      · rw [hresolved, hstep.resolved, Nat.add_assoc]
      · rw [hunresolved, hstep.unresolved, Nat.add_assoc]

/-- Each reply is marked with the kind of the last query it answers, if that is in the window;
nothing else is changed, and the replies with and without a query are counted. -/
theorem run_history (window_s : Time) {packets : List Observed}
    (hordered : packets.Pairwise (fun a b => a.time ≤ b.time)) :
    let kinds := replyKinds window_s [] packets
    let r := ({ window_s } : CommandTracker).run packets
    r.2 = packets.zipWith (fun e kind => marked e.1 kind) kinds ∧
      r.1.resolved = (kinds.map resolvedBy).sum ∧
      r.1.unresolved = (kinds.map unresolvedBy).sum := by
  cases packets with
  | nil => exact ⟨rfl, rfl, rfl⟩
  | cons e packets =>
      have hnow : ∀ x ∈ e :: packets, e.time ≤ x.time :=
        List.forall_mem_cons.mpr ⟨le_rfl, (List.pairwise_cons.mp hordered).1⟩
      simpa using run_observes (tracks_fresh window_s e.time) hnow hordered

/-- An extended command, its acknowledgement, and the same acknowledgement again too late. -/
def queryAndReplies : List Observed :=
  let query := Packet.ofBytes 0x1F#8 [0x80#8, 0x25#8, 0x13#8, 0xE5#8, 0x3F#8, 0x16#8, 0x2F#8, 0x00#8]
  let reply := Packet.ofBytes 0x2F#8 [0xE5#8, 0x3F#8, 0x16#8, 0x80#8, 0x25#8, 0x13#8, 0x2F#8, 0x00#8]
  [({ query with timestamp := some 0 }, 0), ({ reply with timestamp := some 1 }, 0),
    ({ reply with timestamp := some 6 }, 0)]

theorem run_history_queryAndReplies :
    replyKinds 5 [] queryAndReplies = [none, some (some true), some none] ∧
      (({ window_s := 5 } : CommandTracker).run queryAndReplies).1.resolved = 1 ∧
      (({ window_s := 5 } : CommandTracker).run queryAndReplies).1.unresolved = 1 := by
  have hkinds : replyKinds 5 [] queryAndReplies = [none, some (some true), some none] := by
    decide +kernel
  have hrun := @run_history 5 queryAndReplies (by decide +kernel)
  simp only [hkinds] at hrun
  exact ⟨hkinds, hrun.2.1, hrun.2.2⟩

end CommandTracker

end InsteonRf
