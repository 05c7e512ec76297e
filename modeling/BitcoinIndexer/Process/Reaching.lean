import BitcoinIndexer.Core.Observed
import BitcoinIndexer.Process.CallsEnd

/-!
# The process goes on

While no call of the store ends in a failure, a process that has been started comes to
fetch blocks, and it asks for the next one again and again.
-/

namespace BitcoinIndexer.Process

open BitcoinIndexer.Types
open BitcoinIndexer.Worker
open BitcoinIndexer.Store
open BitcoinIndexer.Node
open BitcoinIndexer.Pipeline
open BitcoinIndexer.Interleaving

variable {p : Indexer} {events : ℕ → Event} {event : Event} {s : Node.State BlockHash Block}

/-! ## The prefetcher as a part of the process -/

/-- What the event is for the prefetcher. -/
def Indexer.prefetched (p : Indexer) : Event → Option (Node.Event BlockHash Block)
  | .main _ _ =>
      match p.stage with
      | .fetching prefetcher => some (if prefetcher.phase = .idle then .next else .consumer)
      | _ => none
  | .prefetch index client => some (.worker index client.rpc)
  | .start _ _ | .pipeline _ => none

theorem fetch_prefetcher (p : Indexer) (s : Node.State BlockHash Block) :
    (p.fetch s).stage.prefetcher = some (s.step (if s.phase = .idle then .next else .consumer)) := by
  simp only [Indexer.fetch]
  split <;> rfl

theorem prefetcher_step (h : p.stage.prefetcher = some s) (hgoes : event.starts = false) :
    (p.step event).stage.prefetcher =
      some (FairRuns.within State.step s (p.prefetched event)) := by
  obtain ⟨threadNum, height, db, w, stage⟩ := p
  cases event with
  | start threadNum client => cases hgoes
  | pipeline event => exact h
  | prefetch index client =>
      cases stage with
      | fetching prefetcher | inserting prefetcher _ => obtain rfl := Option.some.inj h; rfl
      | _ => cases h
  | main fails client =>
      cases stage with
      | fetching prefetcher =>
          obtain rfl := Option.some.inj h
          exact fetch_prefetcher _ _
      | inserting prefetcher prog =>
          obtain rfl := Option.some.inj h
          simp only [Indexer.step, Indexer.mainStep]
          split <;> rfl
      | _ => cases h

/-- A prefetcher is there from its start on. -/
theorem exists_new (hnone : p.stage.prefetcher = none) (hgoes : event.starts = false)
    (h : (p.step event).stage.prefetcher = some s) : ∃ start count, p.stage = .starting start ∧
      s = .new p.threadNum count start ∧ (p.step event).stage = .fetching s := by
  cases event with
  | start threadNum client => cases hgoes
  | pipeline event => rw [show (p.step (.pipeline event)).stage = p.stage from rfl, hnone] at h; cases h
  | prefetch index client =>
      obtain ⟨threadNum, height, db, w, stage⟩ := p
      cases stage with
      | fetching prefetcher => cases hnone
      | inserting prefetcher prog => cases hnone
      | _ => cases h
  | main fails client =>
      simp only [Indexer.step, Indexer.mainStep] at h ⊢
      cases hstage : p.stage with
      | fetching prefetcher => rw [hstage] at hnone; cases hnone
      | inserting prefetcher prog => rw [hstage] at hnone; cases hnone
      | starting start =>
          simp only [hstage, Indexer.startPrefetcher] at h ⊢
          cases hcount : client.rpc.getBlockCount with
          | error error =>
              simp only [hcount] at h
              rw [hstage] at h
              cases h
          | ok count =>
              simp only [hcount] at h ⊢
              obtain rfl := Option.some.inj h
              exact ⟨start, count, rfl, rfl, rfl⟩
      | down => simp only [hstage] at h; cases h
      | failed fault => simp only [hstage] at h; cases h
      | opening prog =>
          simp only [hstage] at h
          split at h
          · unfold Indexer.run at h
            split at h
            · cases h
            · split at h <;> cases h
          · cases h
      | asking height prog =>
          simp only [hstage] at h
          split at h
          · rename_i answer _
            cases answer <;> cases h
          · cases h

/-! ## What stays until the main thread goes on -/

theorem until_main {P : Indexer → Prop} (hgoes : ∀ time, (events time).starts = false)
    (hmain : Scheduled events .main)
    (hkept : ∀ q event, P q → event.starts = false → event.thread ≠ some .main → P (q.step event))
    {time : ℕ} (h : P (p.runTo events time)) : ∃ later fails client, time ≤ later ∧
      events later = .main fails client ∧ P (p.runTo events later) := by
  obtain ⟨later, hle, hthread⟩ := hmain time
  obtain ⟨distance, rfl⟩ := Nat.exists_eq_add_of_le hle
  induction distance generalizing time with
  | zero =>
      cases hevent : events time with
      | main fails client => exact ⟨time, fails, client, le_rfl, hevent, h⟩
      | _ => rw [Nat.add_zero, hevent] at hthread; cases hthread
  | succ distance ih =>
      by_cases hnow : (events time).thread = some .main
      · cases hevent : events time with
        | main fails client => exact ⟨time, fails, client, le_rfl, hevent, h⟩
        | _ => rw [hevent] at hnow; cases hnow
      · have hnext : P (p.runTo events (time + 1)) := by
          rw [runTo_succ]
          exact hkept _ _ h (hgoes time) hnow
        have hsum : time + 1 + distance = time + (distance + 1) := by omega
        obtain ⟨later, fails, client, hle, hrest⟩ := ih hnext (by omega) (by rwa [hsum])
        exact ⟨later, fails, client, by omega, hrest⟩

/-- How far the process has come. -/
def Stage.level : Stage → ℕ
  | .down => 0
  | .opening _ => 1
  | .asking _ _ => 2
  | .starting _ => 3
  | .fetching _ | .inserting _ _ | .failed _ => 4

/-- Steps of the other threads. -/
theorem aside (hgoes : event.starts = false) (hthread : event.thread ≠ some .main) :
    (p.step event).remaining = p.remaining ∧ (p.step event).stage.level = p.stage.level ∧
      (p.step event).stage.waits = p.stage.waits := by
  obtain ⟨threadNum, height, db, w, stage⟩ := p
  cases event with
  | start threadNum client => cases hgoes
  | main fails client => exact absurd rfl hthread
  | pipeline event => exact ⟨rfl, rfl, rfl⟩
  | prefetch index client => cases stage <;> exact ⟨rfl, rfl, rfl⟩

/-- A call that has failed stays as it is. -/
theorem halted_step {reason : Halt} (hhalted : p.remaining = .halt reason)
    (hgoes : event.starts = false) : (p.step event).remaining = .halt reason := by
  by_cases hthread : event.thread = some .main
  · cases event with
    | main fails client =>
        obtain ⟨threadNum, height, db, w, stage⟩ := p
        cases stage with
        | down => exact hhalted
        | opening prog | inserting _ prog =>
            obtain rfl : prog = .halt reason := hhalted
            rfl
        | asking height prog =>
            cases prog with
            | halt other => exact hhalted
            | _ => cases hhalted
        | _ => cases hhalted
    | _ => cases hthread
  · rw [(aside hgoes hthread).1, hhalted]

theorem halted_runTo (hgoes : ∀ time, (events time).starts = false) {reason : Halt} {time later : ℕ}
    (hle : time ≤ later) (hhalted : (p.runTo events time).remaining = .halt reason) :
    (p.runTo events later).remaining = .halt reason := by
  induction later, hle using Nat.le_induction with
  | base => exact hhalted
  | succ later _ ih =>
      rw [runTo_succ]
      exact halted_step ih (hgoes later)

theorem run_level (p : Indexer) : 2 ≤ p.run.stage.level := by
  unfold Indexer.run
  split
  · simp [Stage.level]
  · split <;> simp [Stage.level, Indexer.call]

/-- A call that has returned lets the process go on. -/
theorem main_level (hreturned : p.remaining = .pure ()) (hlow : p.stage.level < 4) (fails : Bool)
    {client : Client} {count : ℕ} (hcount : client.rpc.getBlockCount = .ok count) :
    p.stage.level < (p.mainStep fails client).stage.level := by
  obtain ⟨threadNum, height, db, w, stage⟩ := p
  cases stage with
  | down => cases hreturned
  | opening prog =>
      obtain rfl : prog = .pure () := hreturned
      exact run_level _
  | asking height prog =>
      cases prog with
      | pure answer => cases answer <;> simp [Stage.level, Indexer.mainStep, Prog.returned, Indexer.startFrom]
      | _ => cases hreturned
  | starting start =>
      simp [Stage.level, Indexer.mainStep, Indexer.startPrefetcher, hcount]
  | _ => exact absurd hlow (lt_irrefl 4)

theorem level_step (hgoes : event.starts = false) : p.stage.level ≤ (p.step event).stage.level := by
  by_cases hthread : event.thread = some .main
  · cases event with
    | main fails client =>
        obtain ⟨threadNum, height, db, w, stage⟩ := p
        simp only [Indexer.step, Indexer.mainStep]
        cases stage with
        | down => exact le_rfl
        | opening prog =>
            simp only
            split
            · exact Nat.le_of_succ_le (run_level _)
            · exact le_rfl
        | asking height prog =>
            simp only
            split
            · rename_i answer _
              cases answer <;> simp [Stage.level, Indexer.startFrom]
            · exact le_rfl
        | starting start =>
            simp only [Indexer.startPrefetcher]
            split <;> simp [Stage.level]
        | fetching prefetcher =>
            simp only [Indexer.fetch]
            split <;> exact le_rfl
        | inserting prefetcher prog =>
            simp only
            split <;> exact le_rfl
        | failed fault => exact le_rfl
    | _ => cases hthread
  · exact (aside hgoes hthread).2.1.ge

theorem level_runTo (hgoes : ∀ time, (events time).starts = false) {time later : ℕ}
    (hle : time ≤ later) : (p.runTo events time).stage.level ≤ (p.runTo events later).stage.level := by
  induction later, hle using Nat.le_induction with
  | base => exact le_rfl
  | succ later _ ih =>
      rw [runTo_succ]
      exact ih.trans (level_step (hgoes later))

theorem prefetcher_runTo (hgoes : ∀ time, (events time).starts = false) {time later : ℕ}
    (hle : time ≤ later) (h : (p.runTo events time).stage.prefetcher.isSome = true) :
    (p.runTo events later).stage.prefetcher.isSome = true := by
  induction later, hle using Nat.le_induction with
  | base => exact h
  | succ later _ ih =>
      obtain ⟨s, hs⟩ := Option.isSome_iff_exists.1 ih
      rw [runTo_succ, prefetcher_step hs (hgoes later)]
      rfl

/-- No new process is started, every thread takes its steps and no call fails. -/
structure Unhindered (p : Indexer) (events : ℕ → Event) : Prop where
  runs : Runs p
  goes : ∀ time, (events time).starts = false
  scheduled : ∀ thread, Scheduled events thread
  lives : ∀ time reason, (p.runTo events time).remaining ≠ .halt reason

namespace Unhindered

theorem returns (h : Unhindered p events) (time : ℕ) :
    ∃ later, time ≤ later ∧ (p.runTo events later).remaining = .pure () := by
  obtain ⟨later, hle, hended⟩ := h.runs.ends h.goes (h.scheduled .main)
    (fun thread => h.scheduled (.pipeline thread)) time
  refine ⟨later, hle, ?_⟩
  have hlives := h.lives later
  cases hremaining : (p.runTo events later).remaining with
  | pure value => rfl
  | halt reason => exact absurd hremaining (hlives reason)
  | _ => rw [hremaining] at hended; cases hended

/-- The next step of the main thread once a call has returned. -/
theorem returned_main (h : Unhindered p events) (time : ℕ) : ∃ later fails client, time ≤ later ∧
    events later = .main fails client ∧ (p.runTo events later).remaining = .pure () := by
  obtain ⟨returned, hle, hreturned⟩ := h.returns time
  obtain ⟨later, fails, client, hlater, hevent, hstill⟩ := until_main h.goes (h.scheduled .main)
    (P := fun q => q.remaining = .pure ())
    (fun q event hq hgoes hthread => (aside hgoes hthread).1.trans hq) hreturned
  exact ⟨later, fails, client, hle.trans hlater, hevent, hstill⟩

/-- Once the node tells its block count, every stage up to the fetching is left. -/
theorem reaches (h : Unhindered p events) {last : ℕ} (hcounts : ∀ time, last ≤ time →
      ∀ fails client, events time = .main fails client →
        ∃ count, client.rpc.getBlockCount = .ok count) :
    ∃ time, last ≤ time ∧ 4 ≤ (p.runTo events time).stage.level := by
  have hrises : ∀ level, level ≤ 4 →
      ∃ time, last ≤ time ∧ level ≤ (p.runTo events time).stage.level := by
    intro level
    induction level with
    | zero => exact fun _ => ⟨last, le_rfl, Nat.zero_le _⟩
    | succ level ih =>
        intro hlevel
        obtain ⟨time, hlast, hle⟩ := ih (Nat.le_of_succ_le hlevel)
        obtain ⟨later, fails, client, htime, hevent, hreturned⟩ := h.returned_main time
        have hkept := hle.trans (level_runTo h.goes htime)
        by_cases hlow : (p.runTo events later).stage.level < 4
        · obtain ⟨count, hcount⟩ := hcounts later (hlast.trans htime) fails client hevent
          have hlt := main_level hreturned hlow fails hcount
          refine ⟨later + 1, by omega, ?_⟩
          rw [runTo_succ, hevent]
          exact Nat.succ_le_of_lt (hkept.trans_lt hlt)
        · exact ⟨later, by omega, by omega⟩
  exact hrises 4 le_rfl

/-- The prefetcher is asked for a block again and again. -/
theorem fetches (h : Unhindered p events) {time : ℕ}
    (hthere : (p.runTo events time).stage.prefetcher.isSome = true) :
    ∃ later s fails client, time ≤ later ∧ (p.runTo events later).stage = .fetching s ∧
      events later = .main fails client := by
  have hwaiting : ∃ waiting, time ≤ waiting ∧ (p.runTo events waiting).stage.waits = true := by
    obtain ⟨later, fails, client, hle, hevent, hreturned⟩ := h.returned_main time
    have hstill := prefetcher_runTo h.goes hle hthere
    cases hstage : (p.runTo events later).stage with
    | fetching s => exact ⟨later, hle, by rw [hstage]; rfl⟩
    | inserting s prog =>
        simp only [Indexer.remaining, hstage] at hreturned
        refine ⟨later + 1, by omega, ?_⟩
        rw [runTo_succ, hevent]
        simp only [Indexer.step, Indexer.mainStep, hstage, hreturned]
        rfl
    | _ => rw [hstage] at hstill; cases hstill
  obtain ⟨waiting, hle, hwaits⟩ := hwaiting
  obtain ⟨later, fails, client, hlater, hevent, hstill⟩ := until_main h.goes (h.scheduled .main)
    (P := fun q => q.stage.waits = true)
    (fun q event hq hgoes hthread => (aside hgoes hthread).2.2.trans hq) hwaits
  cases hstage : (p.runTo events later).stage with
  | fetching s => exact ⟨later, s, fails, client, hle.trans hlater, hstage, hevent⟩
  | _ => rw [hstage] at hstill; cases hstill

end Unhindered

end BitcoinIndexer.Process
