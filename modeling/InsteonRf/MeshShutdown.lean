import InsteonRf.MeshSettling

/-!
# Stopping the service

The service's own shutdown settles what it holds, whatever the run was. The mesh command
stops by its `finally` block instead, and that settles everything exactly if nothing is
held at the stop.
-/
namespace InsteonRf
open OrderedDict

namespace MeshService

/-- Each event the fusion handed over was told once to the miss table and, if there is a
writer, once to that. -/
structure SettledOnce (writer : Bool) (effects : Effects) : Prop where
  noted : (effects.noted.map (fun c => c.1.unjudged)).Perm
    (effects.emitted.map FusedEvent.unjudged)
  written : writer = true → (effects.written.map FusedEvent.unjudged).Perm
    (effects.emitted.map FusedEvent.unjudged)

theorem settledOnce_of_noted {m : MeshService} {effects : Effects}
    (hwritten : effects.written = m.records effects.noted)
    (h : (effects.noted.map (fun c => c.1.unjudged)).Perm
      (effects.emitted.map FusedEvent.unjudged)) : SettledOnce m.writer effects := by
  refine ⟨h, ?_⟩
  intro hwriter
  rw [hwritten, records, if_pos hwriter, List.map_map]
  exact h

theorem cleanup_effects (m : MeshService) (now : Time) :
    (m.cleanup now).2.noted.map (fun c => c.1.unjudged) =
        (m.cleanup now).2.emitted.map FusedEvent.unjudged ∧
      (m.cleanup now).2.written = m.records (m.cleanup now).2.noted := by
  obtain ⟨fusion, ready, hflush⟩ : ∃ fusion ready, m.fusion.flush now = (fusion, ready) :=
    ⟨_, _, Prod.mk.eta.symm⟩
  rw [cleanup, hflush]
  simp only [List.map_map]
  exact ⟨rfl, trivial⟩

theorem emitted_loop (o : MeshOptions) (ops : List Op) :
    ((new o).loop ops).2.emitted.map FusedEvent.unjudged =
      ((new o).loop ops).2.noted.map (fun c => c.1.unjudged) ++
        ((new o).loop ops).1.holding.map (fun h => h.2.unjudged) :=
  ((new o).accounted_loop ops).order

/-- The mesh command settles each event once exactly if none is held at its stop; the
service's own loop always does. -/
theorem settledOnce_iff (o : MeshOptions) (ops : List Op) (now : Time) (ask : ℕ → Answer) :
    (SettledOnce o.writer ((new o).meshMain ops now).2 ↔ ((new o).loop ops).1.holding = []) ∧
      SettledOnce o.writer ((new o).run ops now ask).2 := by
  have hloop := (new o).accounted_loop ops
  have hemitted := emitted_loop o ops
  obtain ⟨hnoted, hwritten⟩ := cleanup_effects ((new o).loop ops).1 now
  have hmain : ((new o).meshMain ops now).2 =
      ((new o).loop ops).2.append (((new o).loop ops).1.cleanup now).2 := rfl
  refine ⟨⟨?_, ?_⟩, ?_⟩
  · intro h
    have hlen := h.noted.length_eq
    rw [hmain] at hlen
    simp only [Effects.append, List.map_append, hnoted, hemitted, List.length_append,
      List.length_map] at hlen
    apply List.length_eq_zero_iff.mp
    omega
  · intro hnone
    rw [hnone, List.map_nil, List.append_nil] at hemitted
    apply settledOnce_of_noted (m := new o)
    · rw [hmain]
      simp only [Effects.append, hloop.written, hwritten, records, hloop.writer]
      split_ifs
      · rw [List.map_append]
      · rfl
    · rw [hmain]
      simp only [Effects.append, List.map_append, hnoted, hemitted]
      exact List.Perm.refl _
  · have hrun := (new o).accounted_run ops now ask
    apply settledOnce_of_noted (m := new o) hrun.written
    have horder := hrun.order
    have hnone : ((new o).run ops now ask).1.holding = [] := rfl
    rw [hnone, List.map_nil, List.append_nil] at horder
    exact horder ▸ List.Perm.refl _

def stoppedInGrace : List Op :=
  [.capture oneCapture 0 0, .drain 3 (fun _ => { clock := 3, enabled := true })]

/-- Stopped then, the mesh command neither tells the miss table nor the writer. -/
theorem settledOnce_stoppedInGrace :
    ((new { writer := true }).meshMain stoppedInGrace 4).2.emitted.length = 1 ∧
      ((new { writer := true }).meshMain stoppedInGrace 4).2.noted.length = 0 ∧
      ((new { writer := true }).meshMain stoppedInGrace 4).2.written.length = 0 ∧
      ¬ SettledOnce true ((new { writer := true }).meshMain stoppedInGrace 4).2 := by
  have hemitted :
      ((new { writer := true }).meshMain stoppedInGrace 4).2.emitted.length = 1 := by
    decide +kernel
  have hnoted : ((new { writer := true }).meshMain stoppedInGrace 4).2.noted.length = 0 := by
    decide +kernel
  refine ⟨hemitted, hnoted, by decide +kernel, ?_⟩
  intro h
  have hlen := h.noted.length_eq
  rw [List.length_map, List.length_map, hemitted, hnoted] at hlen
  omega

end MeshService

end InsteonRf
