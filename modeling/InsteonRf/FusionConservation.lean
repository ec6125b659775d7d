import InsteonRf.FusionInvariants

/-!
# Conservation of sightings

Every sighting is counted late, copied into one event, or still in a bucket.
The account is kept as a multiset of receiver names, so that the totals and the
equation of each receiver are readings of one statement.
-/
namespace InsteonRf
open OrderedDict Selection

def Bucket.heard (b : Bucket) : Multiset String := ↑(b.sightings.map Sighting.receiver)

def Emission.heard (e : Emission) : Multiset String :=
  e.event.receivers.tally ReceiverView.copies

namespace Bucket

@[simp] theorem heard_new (key : Key) (s : Sighting) : (new key s).heard = {s.receiver} := rfl

@[simp] theorem heard_add (b : Bucket) (s : Sighting) :
    (b.add s).heard = b.heard + {s.receiver} := by
  simp [heard, ← Multiset.coe_add, ← Multiset.coe_singleton]

@[simp] theorem heard_addAll (g b : Bucket) : (g.addAll b.sightings).heard = g.heard + b.heard := by
  simp [heard, ← Multiset.coe_add]

theorem card_heard (b : Bucket) : b.heard.card = b.sightings.length := by simp [heard]

theorem tally_views (ss : List Sighting) :
    (views ss).tally ReceiverView.copies = ↑(ss.map Sighting.receiver) := by
  induction ss using List.reverseRecOn with
  | nil => rfl
  | append_singleton ss s ih =>
      have hstep : views (ss ++ [s]) =
          (views ss).set s.receiver ((((views ss).get s.receiver).getD {}).note s) := by
        simp [views]
      rw [hstep, Dict.tally_set_succ, ih]
      · simp [← Multiset.coe_add, ← Multiset.coe_singleton]
      · cases (views ss).get s.receiver <;> rfl

end Bucket

namespace Fusion

theorem heard_finish (f : Fusion) (b : Bucket) (now : Time) :
    (f.finish b now (b.build f.cfg.allow_combine)).2.heard = b.heard := by
  rw [Emission.heard, (finish_built f b now).receivers]
  exact Bucket.tally_views b.sightings

/-- The receivers of the sightings that have arrived and not left in an event. -/
def account (f : Fusion) : Multiset String :=
  f.late.tally id + (f.buckets.map Bucket.heard).sum

def received (ops : List Op) : List Sighting :=
  ops.filterMap (fun op => match op with
    | .add s _ => some s
    | _ => none)

theorem account_eq (f : Fusion) :
    f.account = f.late.tally id +
      ((f.openBuckets.values.map Bucket.heard).sum + (f.ready.map Bucket.heard).sum) := by
  rw [account, buckets, List.map_append, List.sum_append]

theorem account_group {f : Fusion} {key : Key} (hkey : f.openBuckets.get key = none)
    (s : Sighting) : (f.group key s).account = f.account + {s.receiver} := by
  rcases f.group_cases key s with ⟨slot, b, -, hn, hst⟩ | ⟨-, hst⟩
  · obtain ⟨hget, -, -⟩ := nearest_spec hn
    rw [hst, account_eq, account_eq, Dict.sum_values_set, Dict.sum_values_erase _ hget,
      Bucket.heard_add]
    abel
  · rw [hst, account_eq, account_eq, Dict.sum_values_set, Dict.erase_of_get_none hkey,
      Bucket.heard_new]
    abel

theorem account_retire {f : Fusion} {key : Key} {b : Bucket}
    (h : f.openBuckets.get key = some b) : (f.retire key b).account = f.account := by
  rw [account_eq, account_eq, Dict.sum_values_erase _ h]
  simp only [retire, List.map_append, List.map_singleton, List.sum_append, List.sum_singleton]
  abel

theorem account_countLate (f : Fusion) (s : Sighting) :
    (f.countLate s).account = f.account + {s.receiver} := by
  rw [account_eq, account_eq]
  simp only [countLate, Dict.tally_bump]
  abel

theorem account_place (f : Fusion) (s : Sighting) :
    (f.place s).account = f.account + {s.receiver} := by
  rcases f.place_cases s with
    ⟨b, hb, h⟩ | ⟨b, hget, -, h⟩ | ⟨-, -, h⟩ | ⟨hnone, -, h⟩ <;> rw [h]
  · rw [account_eq, account_eq, Dict.sum_values_set,
      Dict.sum_values_erase _ (filing_eq_some.mp hb).1, Bucket.heard_add]
    abel
  · rw [account_group (Dict.get_erase_self _ _), account_retire hget]
  · exact account_countLate f s
  · exact account_group hnone s

theorem account_add (f : Fusion) (s : Sighting) (arrived : Option Time) :
    (f.add s arrived).account = f.account + {s.receiver} := by
  obtain ⟨-, -, hopen, hready, -, hlate⟩ := noteLag_fields f (f.correct s) arrived
  rw [add, account_place, correct_receiver, account_eq, account_eq, hopen, hready, hlate]

/-- The account of the emission loop: what is late, open, pending and out. -/
def EmitState.account (st : EmitState) : Multiset String :=
  st.1.late.tally id + (st.1.openBuckets.values.map Bucket.heard).sum +
    ((st.2.1.map Bucket.heard).sum + (st.2.2.map Emission.heard).sum)

theorem tally_countLate_foldl (ss : List Sighting) (f : Fusion) :
    (ss.foldl countLate f).late.tally id = f.late.tally id + ↑(ss.map Sighting.receiver) := by
  induction ss generalizing f with
  | nil => simp
  | cons s ss ih =>
      rw [List.foldl_cons, ih, List.map_cons, ← Multiset.cons_coe, ← Multiset.singleton_add]
      simp only [countLate, Dict.tally_bump]
      abel

/-- Each damaged bucket of the loop adds its own sightings to the account. -/
theorem account_emitDamaged (now : Time) (st : EmitState) (b : Bucket) :
    (emitDamaged now st b).account = st.account + b.heard := by
  obtain ⟨f, pending, out⟩ := st
  rcases emitDamaged_cases now f pending out b with
    ⟨u, g, v, hp, hst⟩ | ⟨key, g, hget, hst⟩ | hst | hst <;> rw [hst]
  · simp only [EmitState.account, hp, List.map_append, List.map_cons, List.sum_append,
      List.sum_cons, Bucket.heard_addAll]
    abel
  · simp only [EmitState.account, Dict.sum_values_set, Bucket.heard_addAll,
      Dict.sum_values_erase _ hget]
    abel
  · obtain ⟨-, hopen, -⟩ := countLate_foldl_fields b.sightings f
    simp only [EmitState.account, hopen, tally_countLate_foldl]
    rw [← Bucket.heard]
    abel
  · simp only [EmitState.account, List.map_append, List.map_singleton, List.sum_append,
      List.sum_singleton, heard_finish]
    simp only [finish]
    abel

theorem account_emitDamaged_foldl (now : Time) (bs : List Bucket) (st : EmitState) :
    (bs.foldl (emitDamaged now) st).account = st.account + (bs.map Bucket.heard).sum := by
  induction bs generalizing st with
  | nil => simp
  | cons b bs ih =>
      rw [List.foldl_cons, ih, account_emitDamaged, List.map_cons, List.sum_cons, add_assoc]

theorem heard_emitPending_foldl (now : Time) (bs : List Bucket) (st : Fusion × List Emission) :
    ((bs.foldl (emitPending now) st).2.map Emission.heard).sum =
      (st.2.map Emission.heard).sum + (bs.map Bucket.heard).sum := by
  induction bs generalizing st with
  | nil => simp
  | cons b bs ih =>
      obtain ⟨f, out⟩ := st
      rw [List.foldl_cons, ih, List.map_cons, List.sum_cons]
      simp only [emitPending, List.map_append, List.map_singleton, List.sum_append,
        List.sum_singleton, heard_finish]
      rw [add_assoc]

theorem sum_filter_add_filter_not {M : Type*} [AddCommMonoid M] (g : Bucket → M)
    (p : Bucket → Bool) (l : List Bucket) :
    ((l.filter p).map g).sum + ((l.filter (fun b => !p b)).map g).sum = (l.map g).sum := by
  rw [← List.sum_append, ← List.map_append]
  exact ((List.filter_append_perm p l).map g).sum_eq

/-- Building events moves the sightings of the closed buckets, losing none. -/
theorem account_emit {f : Fusion} (hready : f.ready = []) (done : List Bucket) (now : Time) :
    (f.emit done now).1.account + ((f.emit done now).2.map Emission.heard).sum =
      f.account + (done.map Bucket.heard).sum := by
  obtain ⟨-, hready', hopen, hlate⟩ := emit_fields f done now
  have hout : ((f.emit done now).2.map Emission.heard).sum =
      ((emitLoop f done now).2.2.map Emission.heard).sum +
        ((emitLoop f done now).2.1.map Bucket.heard).sum := by
    rw [emit_eq, ((sortOn_perm _ _).map Emission.heard).sum_eq, heard_emitPending_foldl]
  have hloop := account_emitDamaged_foldl now
    ((sortOn Bucket.opened done).filter (fun b => !b.hasGood))
    (f, (sortOn Bucket.opened done).filter Bucket.hasGood, [])
  rw [← emitLoop] at hloop
  have hdone : (done.map Bucket.heard).sum =
      (((sortOn Bucket.opened done).filter Bucket.hasGood).map Bucket.heard).sum +
        (((sortOn Bucket.opened done).filter (fun b => !b.hasGood)).map Bucket.heard).sum := by
    rw [sum_filter_add_filter_not, ((sortOn_perm Bucket.opened done).map Bucket.heard).sum_eq]
  simp only [EmitState.account, List.map_nil, List.sum_nil, add_zero] at hloop
  rw [account_eq, account_eq, hopen, hlate, hready', hready, hout, hdone, List.map_nil,
    List.sum_nil, add_zero, add_zero]
  simpa only [add_assoc, add_comm, add_left_comm] using hloop

theorem account_popReady (f : Fusion) (now : Time) :
    (f.popReady now).1.account + ((f.popReady now).2.map Emission.heard).sum = f.account := by
  rw [popReady, account_emit rfl, account_eq, account_eq]
  have hsplit := sum_filter_add_filter_not Bucket.heard
    (fun b => b.isClosed f.cfg (now - f.cfg.lateness_s)) f.openBuckets.values
  simp only [forgetOld, List.map_append, List.sum_append, List.map_nil, List.sum_nil, add_zero]
  simp only [Dict.values, Dict.filter, List.filter_map] at hsplit ⊢
  rw [← hsplit]
  simp only [Function.comp_def]
  abel

theorem account_flush (f : Fusion) (now : Time) :
    (f.flush now).1.account + ((f.flush now).2.map Emission.heard).sum = f.account := by
  rw [flush, account_emit rfl, account_eq, account_eq, List.map_append, List.sum_append]
  simp only [Dict.values_empty, List.map_nil, List.sum_nil, add_zero]
  abel

/-- What was received is what is accounted for in the state and in the events. -/
theorem account_run (f : Fusion) (ops : List Op) :
    (f.run ops).1.account + ((f.run ops).2.map Emission.heard).sum =
      f.account + ↑((received ops).map Sighting.receiver) := by
  induction ops generalizing f with
  | nil => simp [received]
  | cons op ops ih =>
      have hrest := ih (f.step op).1
      rw [run_cons, List.map_append, List.sum_append, add_left_comm, hrest]
      cases op with
      | add s arrived =>
          have hrec : received (.add s arrived :: ops) = s :: received ops := rfl
          simp only [step, account_add, hrec, List.map_cons, List.map_nil, List.sum_nil, zero_add,
            ← Multiset.cons_coe, ← Multiset.singleton_add]
          abel
      | popReady now =>
          have hrec : received (.popReady now :: ops) = received ops := rfl
          rw [hrec, ← account_popReady f now, step]
          abel
      | flush now =>
          have hrec : received (.flush now :: ops) = received ops := rfl
          rw [hrec, ← account_flush f now, step]
          abel

theorem emitDamaged_open_empty {st : EmitState} (h : st.1.openBuckets = Dict.empty) (now : Time)
    (b : Bucket) : (emitDamaged now st b).1.openBuckets = Dict.empty := by
  obtain ⟨f, pending, out⟩ := st
  replace h : f.openBuckets = Dict.empty := h
  rcases emitDamaged_cases now f pending out b with
    ⟨u, g, v, -, hst⟩ | ⟨key, g, hget, -⟩ | hst | hst
  · rw [hst]
    exact h
  · rw [h] at hget
    cases hget
  · rw [hst]
    exact (countLate_foldl_fields b.sightings f).2.1.trans h
  · rw [hst]
    exact h

theorem buckets_flush (f : Fusion) (now : Time) : (f.flush now).1.buckets = [] := by
  obtain ⟨-, hready, hopen, -⟩ := emit_fields { f with openBuckets := Dict.empty, ready := [] }
    (f.ready ++ f.openBuckets.values) now
  have hempty : (emitLoop { f with openBuckets := Dict.empty, ready := [] }
      (f.ready ++ f.openBuckets.values) now).1.openBuckets = Dict.empty := by
    refine List.foldlRecOn (motive := fun st : EmitState => st.1.openBuckets = Dict.empty)
      _ _ rfl ?_
    intro st hst b _
    exact emitDamaged_open_empty hst now b
  rw [buckets, flush, hready, hopen, hempty]
  rfl

theorem account_totals (f : Fusion) (out : List Emission) (r : String) :
    (f.account + (out.map Emission.heard).sum).card =
        f.late.values.sum + (f.buckets.map (fun b => b.sightings.length)).sum +
          (out.map (fun e => (e.event.receivers.values.map ReceiverView.copies).sum)).sum ∧
      (f.account + (out.map Emission.heard).sum).count r =
        f.late.count r +
            (f.buckets.map (fun b => b.sightings.countP (fun s => s.receiver = r))).sum +
          (out.map (fun e => ((e.event.receivers.get r).map ReceiverView.copies).getD 0)).sum := by
  have hcard : ∀ {ι : Type} (l : List ι) (g : ι → Multiset String),
      ((l.map g).sum).card = (l.map (fun i => (g i).card)).sum := by
    intro ι l g
    induction l with
    | nil => rfl
    | cons i l ih => simp [ih]
  have hcount : ∀ {ι : Type} (l : List ι) (g : ι → Multiset String),
      ((l.map g).sum).count r = (l.map (fun i => (g i).count r)).sum := by
    intro ι l g
    induction l with
    | nil => rfl
    | cons i l ih => simp [ih]
  constructor
  · rw [account, Multiset.card_add, Multiset.card_add, hcard, hcard, Dict.card_tally, List.map_id]
    simp only [Bucket.card_heard, Emission.heard, Dict.card_tally]
  · rw [account, Multiset.count_add, Multiset.count_add, hcount, hcount, Dict.count_tally]
    simp only [Emission.heard, Dict.count_tally, Bucket.heard, Multiset.coe_count, List.count,
      List.countP_map, Option.map_id_fun, id]
    rfl

/-- In every run each sighting is counted late, copied into one event or still in a
bucket, in total and for each receiver; flushing leaves none in a bucket. -/
theorem run_conserves (cfg : FusionConfig) (skew : Option ClockSkew) (ops : List Op) :
    let final := ((fresh cfg skew).run ops).1
    let out := ((fresh cfg skew).run ops).2
    (received ops).length =
        final.late.values.sum +
          (out.map (fun e => (e.event.receivers.values.map ReceiverView.copies).sum)).sum +
          (final.buckets.map (fun b => b.sightings.length)).sum ∧
      (∀ r, (received ops).countP (fun s => s.receiver = r) =
        final.late.count r +
          (out.map (fun e => ((e.event.receivers.get r).map ReceiverView.copies).getD 0)).sum +
          (final.buckets.map (fun b => b.sightings.countP (fun s => s.receiver = r))).sum) ∧
      ∀ now, (final.flush now).1.buckets = [] := by
  intro final out
  have hrun : final.account + (out.map Emission.heard).sum =
      ↑((received ops).map Sighting.receiver) := by
    rw [account_run, show (fresh cfg skew).account = 0 from rfl, zero_add]
  refine ⟨?_, ?_, fun now => buckets_flush final now⟩
  · have htotal := (account_totals final out "").1
    rw [hrun, Multiset.coe_card, List.length_map] at htotal
    rw [htotal, add_right_comm]
  · intro r
    have hone := (account_totals final out r).2
    rw [hrun, Multiset.coe_count, List.count, List.countP_map] at hone
    rw [add_right_comm, ← hone]
    rfl

end Fusion

end InsteonRf
