import BitcoinIndexer.Pipeline.Ending
import BitcoinIndexer.Pipeline.Invariant

/-!
# What is handed over is written

Workers that go on taking steps write everything they have been given, unless one of them
fails.
-/

namespace BitcoinIndexer.Pipeline

open BitcoinIndexer.Worker
open BitcoinIndexer.Store
open BitcoinIndexer.Types
open BitcoinIndexer.FairRuns

variable {w : World} {p : Workers} {extra : List BlockHash}

/-- A batch on its way to the writer can be taken further. -/
theorem exists_goesOn_of_live (hworkers : w.workers = some p) (hlive : liveIn p ≠ []) :
    ∃ thread, GoesOn w thread := by
  have hready : UtxoReady p ∨ QueryFmtReady p ∨ WriterReady p := by
    unfold UtxoReady QueryFmtReady WriterReady
    cases hutxo : p.utxo <;> cases hqueryFmt : p.queryFmt <;> cases hwriter : p.writer <;>
      simp_all [liveIn]
  obtain h | h | h := hready
  · exact ⟨_, goesOn_utxo hworkers h⟩
  · exact ⟨_, goesOn_queryFmt hworkers h⟩
  · exact ⟨_, goesOn_writer hworkers h⟩

/-- Everything is written, as far as the workers have not failed. -/
def Drained (w : World) : Prop := healthy w → flight w = []

theorem healthy_of_step {event : WorkerEvent} (h : healthy (w.step event)) : healthy w := by
  cases hworkers : w.workers with
  | none => exact healthy_none hworkers
  | some p =>
      rw [healthy_some hworkers]
      have htransition := transition_step hworkers event
      generalize w.step event = after at htransition h
      cases htransition with
      | stay => exact (healthy_some hworkers).1 h
      | _ =>
          rw [healthy_some rfl] at h
          simp_all [Healthy, sound]

theorem flight_step (h : flight w = []) (event : WorkerEvent) : flight (w.step event) = [] := by
  cases hworkers : w.workers with
  | none => rwa [step_none hworkers]
  | some p =>
      have htransition := transition_step hworkers event
      generalize w.step event = after at htransition
      cases htransition with
      | committed msg db hreceived hexecute =>
          rw [flight, List.drop_eq_nil_iff] at h ⊢
          exact h.trans (by simp)
      | _ => exact h

theorem Drained.step (h : Drained w) (event : WorkerEvent) : Drained (w.step event) :=
  fun hhealthy => flight_step (h (healthy_of_step hhealthy)) event

/-- A batch that is not written is held by a worker that has not failed. -/
theorem PipeInv.exists_goesOn (h : PipeInv extra w) (hnot : ¬ Drained w) :
    ∃ thread, GoesOn w thread := by
  obtain ⟨hhealthy, hflight⟩ := Classical.not_imp.1 hnot
  have hlive : live w ≠ [] := by
    intro hnone
    have hcomplete := h.complete hhealthy
    rw [hnone, List.append_nil] at hcomplete
    refine hflight ?_
    rw [flight, ← hcomplete, List.drop_length]
  cases hworkers : w.workers with
  | none => exact absurd (live_none hworkers) hlive
  | some p =>
      rw [live_some hworkers] at hlive
      exact exists_goesOn_of_live hworkers hlive

/-- From some moment on everything handed over is written, or a worker has failed. -/
theorem FairWorkers.drains {events : ℕ → Option WorkerEvent} (h : FairWorkers events)
    (hinv : PipeInv extra w) :
    ∃ time, ∀ later, time ≤ later → Drained (runTo system.drift w events later) :=
  h.settles (PipeInv extra) Drained (fun _ event hinv => hinv.step event)
    (fun _ hinv => hinv.exists_goesOn) (fun _ event hdrained => hdrained.step event) hinv

end BitcoinIndexer.Pipeline
