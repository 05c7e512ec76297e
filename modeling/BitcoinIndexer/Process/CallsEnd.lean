import BitcoinIndexer.Pipeline.CallsEnd
import BitcoinIndexer.Process.Safety

/-!
# The process is never stuck in its store

Every call of the store comes to an end while the main thread and the threads of the store
go on taking steps, whatever the node answers and whichever statements fail.
-/

namespace BitcoinIndexer.Process

open BitcoinIndexer.Types
open BitcoinIndexer.Worker
open BitcoinIndexer.Store
open BitcoinIndexer.Pipeline
open BitcoinIndexer.Interleaving

/-! ## Schedules without an end -/

inductive Thread where
  | main
  | prefetcher (index : ℕ)
  | pipeline (thread : Store.Thread)

def Event.thread : Event → Option Thread
  | .start _ _ => none
  | .main _ _ => some .main
  | .prefetch index _ => some (.prefetcher index)
  | .pipeline event => some (.pipeline (threadOf event))

/-- The thread takes a step again and again. -/
def Scheduled (events : ℕ → Event) (thread : Thread) : Prop :=
  ∀ time, ∃ later, time ≤ later ∧ (events later).thread = some thread

/-- The process after the first events of a schedule. -/
def Indexer.runTo (p : Indexer) (events : ℕ → Event) (time : ℕ) : Indexer :=
  p.runFrom ((List.range time).map events)

variable {p : Indexer} {events : ℕ → Event} {event : Event}

theorem runTo_succ (p : Indexer) (events : ℕ → Event) (time : ℕ) :
    p.runTo events (time + 1) = (p.runTo events time).step (events time) := by
  simp [Indexer.runTo, Indexer.runFrom, List.range_succ]

/-! ## The call that is running -/

/-- What happens, as the caller of the store sees it. -/
def Event.turn : Event → Turn WorkerEvent
  | .main fails _ => .own fails
  | .pipeline event => .other event
  | .start _ _ | .prefetch _ _ => .elsewhere

def Indexer.calling (p : Indexer) : StoreM Unit × IndexerStore × World :=
  (p.remaining, p.db, p.shared)

/-- While a call runs, the steps of the process are steps of the call and of its workers. -/
theorem calling_step (hrunning : p.remaining.ended = false) (hgoes : event.starts = false) :
    (p.step event).calling = system.turn event.turn p.calling := by
  obtain ⟨threadNum, height, db, w, stage⟩ := p
  cases event with
  | start threadNum client => cases hgoes
  | pipeline event => cases stage <;> rfl
  | prefetch index client => cases stage <;> rfl
  | main fails client =>
      cases stage with
      | opening prog =>
          have hreturned : prog.returned = none := Prog.returned_eq_none hrunning
          simp only [Indexer.step, Indexer.mainStep, hreturned]
          rfl
      | asking height prog =>
          have hreturned : prog.returned = none :=
            Prog.returned_eq_none ((Prog.ended_forget prog).symm.trans hrunning)
          simp only [Indexer.step, Indexer.mainStep, hreturned]
          exact (System.proceed_forget prog).symm
      | inserting prefetcher prog =>
          have hreturned : prog.returned = none := Prog.returned_eq_none hrunning
          simp only [Indexer.step, Indexer.mainStep, hreturned]
          rfl
      | _ => cases hrunning

/-- The workers of the store are given their turns in the process. -/
theorem fairWorkers (hworkers : ∀ thread, Scheduled events (.pipeline thread)) (time : ℕ) :
    FairWorkers fun later => (events (time + later)).turn.event := by
  intro thread earlier
  obtain ⟨later, hle, hthread⟩ := hworkers thread (time + earlier)
  obtain ⟨distance, rfl⟩ :=
    Nat.exists_eq_add_of_le ((Nat.le_add_right time earlier).trans hle)
  cases hevent : events (time + distance) with
  | pipeline event =>
      rw [hevent] at hthread
      have hturn : (events (time + distance)).turn.event = some event := by rw [hevent]; rfl
      have hsame := Thread.pipeline.inj (Option.some.inj hthread)
      exact ⟨distance, Nat.le_of_add_le_add_left hle, event, hturn, hsame⟩
  | _ => rw [hevent] at hthread; cases hthread

/-- The call that is running joins a thread only when it has told it to end. -/
structure Runs (p : Indexer) : Prop where
  settled : p.remaining.Settled
  meets : system.Meets Joinable p.remaining p.db p.shared

namespace Runs

theorem of_returned (h : p.remaining = .pure ()) : Runs p := by
  constructor
  · rw [h]
    exact fun _ => rfl
  · rw [h]
    exact trivial

theorem call {α : Type} {prog : StoreM α} {stage : StoreM α → Stage} (hcloses : ClosesFirst prog)
    (hstage : ∀ (q : Indexer) (rest : StoreM α), q.stage = stage rest → q.remaining = rest.forget) :
    Runs (p.call prog stage) := by
  have hrest : (p.call prog stage).remaining = (prog.settle p.db).1.forget := hstage _ _ rfl
  constructor
  · rw [hrest]
    exact (Prog.settled_settle prog p.db).forget
  · rw [hrest]
    exact (hcloses p.db p.shared).settle.forget

theorem proceed {α : Type} {prog : StoreM α} {stage : StoreM α → Stage} (h : Runs p)
    (hstage : ∀ (q : Indexer) (rest : StoreM α), q.stage = stage rest → q.remaining = rest.forget)
    (hprog : p.stage = stage prog) (fails : Bool) : Runs (p.proceed fails prog stage) := by
  have hrest : (p.proceed fails prog stage).remaining =
      (system.proceed fails prog p.db p.shared).1.forget := hstage _ _ rfl
  obtain ⟨hsettled, hmeets⟩ := h
  rw [hstage p prog hprog] at hsettled hmeets
  replace hsettled : (system.proceed fails prog.forget p.db p.shared).1.Settled :=
    System.settled_proceed hsettled
  replace hmeets := hmeets.proceed fails
  constructor
  · rw [hrest]
    rw [System.proceed_forget] at hsettled
    exact hsettled
  · rw [hrest]
    rw [System.proceed_forget] at hmeets
    exact hmeets

theorem run (p : Indexer) : Runs p.run := by
  unfold Indexer.run
  split
  · exact of_returned rfl
  · split
    · exact call (closesFirst_getHashByHeight _) fun q rest hstage => by
        simp only [Indexer.remaining, hstage]
    · exact of_returned rfl

theorem fetch (p : Indexer) (prefetcher : Node.State BlockHash Block) : Runs (p.fetch prefetcher) := by
  simp only [Indexer.fetch]
  split
  · exact of_returned rfl
  · exact call (closesFirst_insert _) fun q rest hstage => by
      simp only [Indexer.remaining, hstage, Prog.forget_unit]

theorem main (h : Runs p) (fails : Bool) (client : Client) : Runs (p.mainStep fails client) := by
  unfold Indexer.mainStep
  cases hstage : p.stage with
  | down => exact h
  | failed fault => exact h
  | fetching prefetcher => exact fetch p prefetcher
  | starting start =>
      simp only [Indexer.startPrefetcher]
      split
      · exact h
      · exact of_returned rfl
  | opening prog =>
      simp only
      split
      · exact run p
      · exact h.proceed (fun q rest hq => by simp only [Indexer.remaining, hq, Prog.forget_unit])
          hstage fails
  | asking height prog =>
      simp only
      split
      · rename_i answer _
        cases answer <;> exact of_returned rfl
      · exact h.proceed (fun q rest hq => by simp only [Indexer.remaining, hq]) hstage fails
  | inserting prefetcher prog =>
      simp only
      split
      · exact of_returned rfl
      · exact h.proceed (fun q rest hq => by simp only [Indexer.remaining, hq, Prog.forget_unit])
          hstage fails

theorem step (h : Runs p) (event : Event) : Runs (p.step event) := by
  cases event with
  | main fails client => exact h.main fails client
  | pipeline event => exact ⟨h.settled, h.meets.drift (some event)⟩
  | start threadNum client =>
      simp only [Indexer.step, Indexer.start]
      split
      · exact call (closesFirst_new _ _) fun q rest hq => by
          simp only [Indexer.remaining, hq, Prog.forget_unit]
      · exact h
  | prefetch index client =>
      obtain ⟨threadNum, height, db, w, stage⟩ := p
      cases stage <;> exact ⟨h.settled, h.meets⟩

theorem runFrom (h : Runs p) (events : List Event) : Runs (p.runFrom events) := by
  induction events generalizing p with
  | nil => exact h
  | cons event events ih => exact ih (h.step event)

/-- Every call of the store returns or halts. -/
theorem ends (h : Runs p) (hgoes : ∀ time, (events time).starts = false)
    (hmain : Scheduled events .main) (hworkers : ∀ thread, Scheduled events (.pipeline thread))
    (time : ℕ) : ∃ later, time ≤ later ∧ (p.runTo events later).remaining.ended = true := by
  have htrace : ∀ later, (p.runTo events later).calling.1.ended = false →
      (p.runTo events (later + 1)).calling =
        system.turn (events later).turn (p.runTo events later).calling := by
    intro later hrunning
    rw [runTo_succ]
    exact calling_step hrunning (hgoes later)
  have hcaller : ∀ time, ∃ later, time ≤ later ∧ ∃ fails, (events later).turn = .own fails := by
    intro time
    obtain ⟨later, hle, hthread⟩ := hmain time
    cases hevent : events later with
    | main fails client => exact ⟨later, hle, fails, by rw [hevent]; rfl⟩
    | _ => rw [hevent] at hthread; cases hthread
  have hnow := h.runFrom ((List.range time).map events)
  exact System.Meets.ends letsThrough htrace hcaller (fairWorkers hworkers) hnow.settled hnow.meets

end Runs

theorem runs_initial : Runs .initial := ⟨fun _ => rfl, trivial⟩

/-- Everyone takes turns, one worker of the prefetcher after the other. -/
@[irreducible]
def rounds (client : Client) (time : ℕ) : Event :=
  match time % 5 with
  | 0 => .main false client
  | 1 => .prefetch (Nat.unpair (time / 5)).1 client
  | 2 => .pipeline (.writer none)
  | 3 => .pipeline (.queryFmt false)
  | _ => .pipeline (.utxo false)

theorem rounds_go (client : Client) (time : ℕ) : (rounds client time).starts = false := by
  unfold rounds
  split <;> rfl

theorem rounds_answers {answered : Client → Prop} {client : Client} (h : answered client)
    (time : ℕ) : (rounds client time).answers answered := by
  unfold rounds
  split <;> first | exact h | exact trivial

theorem rounds_scheduled (client : Client) (thread : Thread) :
    Scheduled (rounds client) thread := by
  intro time
  cases thread with
  | main => exact ⟨5 * time, by omega, by simp [rounds, Event.thread]⟩
  | prefetcher index =>
      have hle := Nat.right_le_pair index time
      have hmod : (5 * Nat.pair index time + 1) % 5 = 1 := by omega
      have hdiv : (5 * Nat.pair index time + 1) / 5 = Nat.pair index time := by omega
      exact ⟨5 * Nat.pair index time + 1, by omega, by simp [rounds, Event.thread, hmod, hdiv]⟩
  | pipeline thread =>
      cases thread with
      | writer => exact ⟨5 * time + 2, by omega, by simp [rounds, Event.thread, threadOf, Nat.add_mod]⟩
      | queryFmt => exact ⟨5 * time + 3, by omega, by simp [rounds, Event.thread, threadOf, Nat.add_mod]⟩
      | utxoFetching =>
          exact ⟨5 * time + 4, by omega, by simp [rounds, Event.thread, threadOf, Nat.add_mod]⟩

/-- Whatever was before, and whatever the node answers: while the threads of a process go
on, no call of its store runs for ever. -/
theorem store_calls_end (before : List Event) (events : ℕ → Event)
    (hgoes : ∀ time, (events time).starts = false) (hmain : Scheduled events .main)
    (hworkers : ∀ thread, Scheduled events (.pipeline thread)) :
    ∀ time, ∃ later, time ≤ later ∧
      ((Indexer.initial.runFrom before).runTo events later).remaining.ended = true :=
  (runs_initial.runFrom before).ends hgoes hmain hworkers

/-- The call is to send a batch next. -/
def sends (prog : StoreM Unit) : Bool :=
  match prog with
  | .act (.send _) _ => true
  | _ => false

/-- The call is to join a thread next. -/
def joins (prog : StoreM Unit) : Bool :=
  match prog with
  | .act (.join _) _ => true
  | _ => false

@[irreducible]
def untilSend : List Event := working firstChain 50

/-- The second process finds the other chain at the node and stops its workers. -/
@[irreducible]
def untilJoin : List Event := working firstChain 60 ++ working secondChain 20

theorem send_and_join_end :
    let sending := Indexer.initial.runFrom untilSend
    let joining := Indexer.initial.runFrom untilJoin
    (sends sending.remaining = true ∧ ∃ time,
      (sending.runTo (rounds (serving firstChain)) time).remaining.ended = true) ∧
    joins joining.remaining = true ∧ ∃ time,
      (joining.runTo (rounds (serving secondChain)) time).remaining.ended = true := by
  intro sending joining
  have hends : ∀ (before : List Event) (client : Client), ∃ time,
      ((Indexer.initial.runFrom before).runTo (rounds client) time).remaining.ended = true := by
    intro before client
    obtain ⟨time, -, hended⟩ := store_calls_end before (rounds client) (rounds_go client)
      (rounds_scheduled client _) (fun _ => rounds_scheduled client _) 0
    exact ⟨time, hended⟩
  exact ⟨⟨by decide +kernel, hends untilSend _⟩, by decide +kernel, hends untilJoin _⟩

end BitcoinIndexer.Process
