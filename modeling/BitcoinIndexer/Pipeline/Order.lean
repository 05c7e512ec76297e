import BitcoinIndexer.Core.Stages
import BitcoinIndexer.Pipeline.Programs

/-!
# The pipeline commits a prefix

Runs in which a caller hands over batches of its own choice, stops the workers and
starts them again, while every thread may fail at any moment.
-/

namespace BitcoinIndexer.PipelineOrder

open BitcoinIndexer.Types
open BitcoinIndexer.Tables
open BitcoinIndexer.Formatter
open BitcoinIndexer.Worker
open BitcoinIndexer.Store
open BitcoinIndexer.Pipeline
open BitcoinIndexer.Interleaving

/-- The private operations of the store on its pipeline. -/
inductive Operation where
  | flushBatch (blocks : List BlockData)
  | stopWorkers
  | startWorkers

def operationBody : Operation → StoreM Unit
  | .flushBatch blocks => do
      modifyStore fun store => { store with batch := blocks }
      flushBatch
  | .stopWorkers => stopWorkers
  | .startWorkers => startWorkers

def driver : System Act IndexerStore Halt World WorkerEvent Operation :=
  systemOf (fun _ w => w) operationBody

def World.over (db : Db) : World :=
  ⟨db, none, ∅, none, [], [], [], [], db.readDbChainCurrentBlockCount⟩

/-! ## Operations under any view -/

section Operations

variable {D : Discipline Act IndexerStore Halt World WorkerEvent Operation}
variable {I : World → Prop} {E : Halt → IndexerStore → World → Prop} (V : View D I E)

/-- Nothing is left to hand over, and the workers run or are stopped. -/
def Rests (w : World) : Prop := V.At [] [] w ∧ (Running w ∨ w.workers = none)

/-- What holds where an operation returns. -/
def Returned (network : Network) (locals : IndexerStore) (w : World) : Prop :=
  locals.network = network ∧ Rests V w

variable {V} {locals : IndexerStore} {w : World}

theorem rests_step {event : WorkerEvent} (hevent : D.event event w) (h : Rests V w) :
    Rests V (w.step event) := by
  refine ⟨⟨h.1.1.step event, V.step hevent h.1.1 h.1.2⟩, ?_⟩
  obtain hrun | hstopped := h.2
  · exact .inl (running_step hrun event)
  · exact .inr (by rwa [step_none hstopped])

theorem safe_stopping (h : Rests V w) :
    Safe driver D I E (fun _ locals' w' => Returned V locals.network locals' w' ∧
      w'.workers = none) stopWorkers locals w := by
  obtain hrun | hstopped := h.2
  · apply Safe.mono _ (V.safe_stopWorkers h.1 hrun)
    exact fun _ _ _ hpost =>
      ⟨⟨congrArg IndexerStore.network hpost.1, hpost.2.1, .inr hpost.2.2⟩, hpost.2.2⟩
  · apply Safe.mono _ (V.safe_stopWorkers_stopped h.1 hstopped)
    exact fun _ _ _ hpost =>
      ⟨⟨congrArg IndexerStore.network hpost.1, hpost.2.1, .inr hpost.2.2⟩, hpost.2.2⟩

theorem safe_starting (h : Rests V w) (hworkers : w.workers = none)
    (hspawns : V.spawns locals.mode locals.network) :
    Safe driver D I E (fun _ => Returned V locals.network) startWorkers locals w := by
  apply Safe.mono _ (V.safe_startWorkers h.1 hworkers hspawns)
  exact fun _ _ _ hpost => ⟨congrArg IndexerStore.network hpost.1, hpost.2.1, .inl hpost.2.2.1⟩

theorem safe_flushing {blocks : List BlockData} (hat : V.At [] blocks w) (hrun : Running w) :
    Safe driver D I E (fun _ => Returned V locals.network)
      (operationBody (.flushBatch blocks)) locals w := by
  have hnext : V.At [] (blocks ++ []) w := by rwa [List.append_nil]
  simp only [operationBody, Prog.bind_eq, Prog.modify_bind, safe_loc]
  refine Safe.mono ?_ (V.safe_flushBatch hnext hrun)
  intro _ _ _ hpost
  refine ⟨?_, hpost.2.1, .inl hpost.2.2⟩
  rw [hpost.1, View.flushed_network]

end Operations

/-- No workers yet, over any database. -/
def ready (store : IndexerStore) (db : Db) : Config Act IndexerStore Halt World :=
  ⟨store, World.over db, .pure ()⟩

/-- An operation follows one that has returned; a batch that fits goes to running workers,
and workers are started when there are none. -/
def operated (fits : World → List BlockData → Prop) :
    Discipline Act IndexerStore Halt World WorkerEvent Operation where
  event := fun _ _ => True
  access := fun _ _ _ => True
  call := fun operation c => c.prog = .pure () ∧
    match operation with
    | .flushBatch blocks => Running c.shared ∧ fits c.shared blocks
    | .stopWorkers => True
    | .startWorkers => c.shared.workers = none

/-- The ids of every batch are new. -/
def driven : Discipline Act IndexerStore Halt World WorkerEvent Operation :=
  operated fun w blocks => (w.handed.flatMap Batch.ids ++ blocks.map (·.id)).Nodup

/-- From the state `start` on, the transactions of `batches` were committed whole and
in order, and nothing else was; a rolled back one may have used up event ids. -/
inductive Applied (start : Db) : List Batch → Db → Prop where
  | nil : Applied start [] start
  | burn {batches : List Batch} {db : Db} (transaction : Db) (h : Applied start batches db) :
      Applied start batches (db.rollback transaction)
  | commit {batches : List Batch} {db after : Db} (batch : Batch) (mode : Mode)
      (network : Network) (inputsUtxoMap : UtxoDetailsMap) (queries : Queries)
      (h : Applied start batches db)
      (hqueries : fmtInsertBlockdataSql batch.blocks inputsUtxoMap
        (txIdMapFromBlocks batch.blocks network) mode network = .ok queries)
      (hexecute : executeAll queries.toList db = (after, none)) :
      Applied start (batches ++ [batch]) after

def NoMissing (w : World) : Prop :=
  ∀ p, w.workers = some p → p.writer ≠ .exited (.panicked .anyMissing)

structure Holds (start : Db) (next : List BlockData) (w : World) : Prop where
  fresh : (w.handed.flatMap Batch.ids ++ next.map (·.id)).Nodup
  applied : Applied start w.committed w.db
  noMissing : NoMissing w

/-- What is known of the pipeline in every state. -/
def Kept (start : Db) (w : World) : Prop :=
  ∃ extra next, PipeInv extra w ∧ Holds start next w

variable {start : Db}

theorem Holds.step {extra : List BlockHash} {next : List BlockData} {w : World}
    (h : Holds start next w) (hinv : PipeInv extra w) (event : WorkerEvent) :
    Holds start next (w.step event) := by
  cases hworkers : w.workers with
  | none => rwa [step_none hworkers]
  | some p =>
      have hmissing := h.noMissing p hworkers
      have htransition := transition_step hworkers event
      generalize w.step event = after at htransition
      cases htransition with
      | stay => exact h
      | committed msg db hreceived hexecute =>
          obtain ⟨inputsUtxoMap, hqueries⟩ :=
            ((hinv.formed p hworkers).writerReceived msg hreceived).queries
          exact ⟨h.fresh, h.applied.commit msg.batch p.mode p.network inputsUtxoMap msg.queries
            hqueries hexecute, by simp [NoMissing, World.setWriter]⟩
      | refused failAt msg transaction error hreceived herror =>
          exact ⟨h.fresh, h.applied.burn transaction, by simp [NoMissing, World.setWriter]⟩
      | anyMissing msg hcommitted hsubset =>
          exact absurd (hinv.blockIds_subset hworkers hcommitted) hsubset
      | acknowledged | writerDone | writerDied | queriesSent =>
          exact ⟨h.fresh, h.applied, by simp [NoMissing, World.setWriter]⟩
      | _ => exact ⟨h.fresh, h.applied, by simpa [NoMissing] using hmissing⟩

theorem Kept.step {w : World} (h : Kept start w) (event : WorkerEvent) :
    Kept start (w.step event) := by
  obtain ⟨extra, next, hinv, hholds⟩ := h
  exact ⟨extra, next, hinv.step event, hholds.step hinv event⟩

def view (start : Db) : View driven (Kept start) fun _ _ => Kept start where
  holds := Holds start
  spawns := fun _ _ => True
  inv := fun hinv h => ⟨_, _, hinv, h⟩
  died := fun hinv h _ _ => ⟨_, _, hinv, h⟩
  step := fun _ hinv h => h.step hinv _
  lock := fun h => ⟨h.fresh, h.applied, h.noMissing⟩
  fresh := fun _ h => by
    have hfresh := h.fresh
    rw [List.map_append, ← List.append_assoc] at hfresh
    exact (List.nodup_append.1 hfresh).1
  handOver := fun {batch next w p} _ h hworkers _ =>
    ⟨by simpa [handOver, Batch.ids] using h.fresh, h.applied,
      by simpa [NoMissing, handOver] using h.noMissing p hworkers⟩
  closeTx := fun {next w p} _ h hworkers =>
    ⟨h.fresh, h.applied, by simpa [NoMissing] using h.noMissing p hworkers⟩
  join := fun _ h _ _ _ _ => ⟨h.fresh, h.applied, by simp [NoMissing]⟩
  spawn := fun _ h _ _ => ⟨h.fresh, h.applied, by simp [NoMissing, Workers.new]⟩

/-- Between two operations. -/
def Idle (start : Db) (w : World) : Prop :=
  (view start).At [] [] w ∧ (Running w ∨ w.workers = none)

theorem Idle.kept {w : World} (h : Idle start w) : Kept start w :=
  ⟨_, _, h.1.1, h.1.2⟩

theorem Idle.step {w : World} (h : Idle start w) (event : WorkerEvent) :
    Idle start (w.step event) :=
  rests_step (V := view start) trivial h

/-- Stopping leaves everything handed over committed. -/
theorem safe_stop {locals : IndexerStore} {w : World} (h : Idle start w) :
    Safe driver driven (Kept start) (fun _ _ => Kept start)
      (fun _ _ w' => Idle start w' ∧ w'.workers = none) stopWorkers locals w := by
  apply Safe.mono _ (safe_stopping (V := view start) h)
  exact fun _ _ _ hpost => ⟨hpost.1.2, hpost.2⟩

theorem safe_operation {operation : Operation} {c : Config Act IndexerStore Halt World}
    (hcall : driven.call operation c)
    (hsafe : SafeConfig driver driven (Kept start) (fun _ _ => Kept start)
      (fun _ => Idle start) c) :
    Safe driver driven (Kept start) (fun _ _ => Kept start) (fun _ _ => Idle start)
      (operationBody operation) c.locals c.shared := by
  have hidle : Idle start c.shared := by
    rw [SafeConfig, hcall.1] at hsafe
    exact hsafe
  have hreturned : ∀ (value : Unit) (locals : IndexerStore) (w : World),
      Returned (view start) c.locals.network locals w → Idle start w :=
    fun _ _ _ hpost => hpost.2
  cases operation with
  | flushBatch blocks =>
      obtain ⟨-, hrun, hfresh⟩ := hcall
      have hat : (view start).At [] blocks c.shared :=
        ⟨hidle.1.1, hfresh, hidle.1.2.applied, hidle.1.2.noMissing⟩
      exact Safe.mono hreturned (safe_flushing hat hrun)
  | stopWorkers => exact Safe.mono (fun _ _ _ hpost => hpost.1) (safe_stop hidle)
  | startWorkers =>
      exact Safe.mono hreturned (safe_starting (V := view start) hidle hcall.2 trivial)

theorem safe_run (store : IndexerStore) (db : Db)
    (labels : List (Label WorkerEvent Operation))
    (hfollows : driven.follows driver labels (ready store db)) :
    SafeConfig driver driven (Kept db) (fun _ _ => Kept db) (fun _ => Idle db)
      (driver.run labels (ready store db)) := by
  apply SafeConfig.run (fun _ event w _ h => h.step event) (fun _ _ event w _ h => h.step event)
    labels (ready store db) (fun _ _ _ hcall hsafe => safe_operation hcall hsafe) hfollows
  have hinv : PipeInv [] (World.over db) := by
    constructor <;> simp [World.over, live, held, acking, unacked, flight]
  have hholds : Holds db [] (World.over db) :=
    ⟨by simp [World.over], .nil, by simp [NoMissing, World.over]⟩
  exact ⟨⟨hinv, hholds⟩, .inr rfl⟩

/-- At all times: the committed batches are a prefix of those handed over, each
committed once and whole; none behind a failed one is committed; what is handed over
and not committed is in flight; the writer never misses an id; and where
`stop_workers` returns, nothing is under way. -/
theorem pipeline_commits_in_order (store : IndexerStore) (db : Db)
    (labels : List (Label WorkerEvent Operation))
    (hfollows : driven.follows driver labels (ready store db)) :
    let w := (driver.run labels (ready store db)).shared
    w.committed <+: w.handed ∧ w.committed.Nodup ∧ Applied db w.committed w.db ∧
      (∀ (i : ℕ) (batch : Batch), w.handed[i]? = some batch → batch ∈ w.failed →
        w.committed.length ≤ i + 1) ∧
      (∀ batch ∈ w.handed.drop w.committed.length, ∀ block ∈ batch.blocks,
        block.id ∈ w.inFlight) ∧
      (w.inFlight = ∅ → w.committed = w.handed) ∧ NoMissing w ∧
      ∀ more : List (Label WorkerEvent Operation),
        (∀ operation, .call operation ∉ more) →
        driven.follows driver (labels ++ .call .stopWorkers :: more) (ready store db) →
        (driver.run (labels ++ .call .stopWorkers :: more) (ready store db)).prog = .pure () →
        let stopped := (driver.run (labels ++ .call .stopWorkers :: more) (ready store db)).shared
        stopped.committed = stopped.handed ∧ stopped.inFlight = ∅ := by
  have hsafe := safe_run store db labels hfollows
  obtain ⟨extra, next, hinv, hholds⟩ :=
    hsafe.always (I := Kept db) (fun _ _ h => h.kept) (fun _ _ _ h => h)
  refine ⟨hinv.committed_initial, hinv.nodup_handed.sublist hinv.committed_initial.sublist,
    hholds.applied, fun i batch hget hmem => ?_, fun batch hmem block hblock => ?_, hinv.landed,
    hholds.noMissing, fun more hquiet hmore hreturned => ?_⟩
  · have hbound := hinv.barred i batch hget hmem
    omega
  · exact hinv.covered batch (List.mem_append_right _ hmem) block.id
      (List.mem_map_of_mem hblock)
  · rw [System.run_append] at hreturned ⊢
    obtain ⟨-, hcall, hrest⟩ := (Discipline.follows_append driver driven _ _ _).1 hmore
    have hidle : Idle db (driver.run labels (ready store db)).shared := by
      rw [SafeConfig, hcall.1] at hsafe
      exact hsafe
    have hstopped : SafeConfig driver driven (Kept db) (fun _ _ => Kept db)
        (fun _ w => Idle db w ∧ w.workers = none)
        (driver.run more (driver.next (.call .stopWorkers)
          (driver.run labels (ready store db)))) := by
      apply SafeConfig.run _ (fun _ _ event w _ h => h.step event) more _
        (fun name _ hmem => absurd hmem (hquiet name)) hrest
      · exact (safe_settle stopWorkers _ _).2 (safe_stop hidle)
      · exact fun _ event w _ h => ⟨h.1.step event, (congrArg World.workers (step_none h.2 event)).trans h.2⟩
    change SafeConfig _ _ _ _ _ (driver.run (.call .stopWorkers :: more) _) at hstopped
    rw [SafeConfig, hreturned] at hstopped
    exact hstopped.1.1.1.settled hstopped.2

/-! ## A stop between two batches, and a batch that fails -/

section Checks

variable (fits : World → List BlockData → Prop) [∀ w blocks, Decidable (fits w blocks)]

def checkOperation (w : World) : Operation → Bool
  | .flushBatch blocks => w.workers.any (·.txOpen) && decide (fits w blocks)
  | .stopWorkers => true
  | .startWorkers => w.workers.isNone

/-- Whether the step may be taken there. -/
def checkOperated : Label WorkerEvent Operation → Config Act IndexerStore Halt World → Bool
  | .call operation, c =>
      decide (c.prog.returned = some ()) && checkOperation fits c.shared operation
  | _, _ => true

theorem operated_of_check (label : Label WorkerEvent Operation)
    (c : Config Act IndexerStore Halt World) (h : checkOperated fits label c = true) :
    (operated fits).admits label c := by
  cases label with
  | step fails => exact fun _ _ _ => trivial
  | other event => trivial
  | call operation =>
      rw [checkOperated, Bool.and_eq_true, decide_eq_true_eq] at h
      refine ⟨Prog.eq_pure_of_returned h.1, ?_⟩
      cases operation with
      | flushBatch blocks =>
          rw [checkOperation, Bool.and_eq_true, decide_eq_true_eq] at h
          exact ⟨(Option.any_eq_true _ _).1 h.2.1, h.2.2⟩
      | stopWorkers => trivial
      | startWorkers => exact Option.isNone_iff_eq_none.1 h.2

end Checks

/-- Every thread and the caller take a step. -/
def batchRounds (rounds : ℕ) : List (Label WorkerEvent Operation) :=
  (List.replicate rounds
    [.other (.writer none), .other (.queryFmt false), .other (.utxo false), .step false]).flatten

def genesis : BlockData := blockAt 0 1 0

/-- The workers are given two batches. -/
@[irreducible]
def handingTwo : List (Label WorkerEvent Operation) :=
  [Operation.startWorkers, .flushBatch [genesis], .flushBatch [blockAt 1 2 1]].flatMap
    fun operation => .call operation :: batchRounds 8

/-- New workers are given two more, and the first of them fails when it is written. -/
@[irreducible]
def failingThird : List (Label WorkerEvent Operation) :=
  .call .startWorkers :: batchRounds 1 ++
    [.call (.flushBatch [blockAt 2 3 2]), .step false, .step false, .other (.utxo false),
      .other (.utxo false), .other (.queryFmt false), .call (.flushBatch [blockAt 3 4 3]),
      .other (.utxo false), .step false, .step false, .other (.queryFmt false),
      .other (.utxo false), .other (.utxo false), .other (.writer (some 2)),
      .other (.queryFmt false), .other (.writer none)]

theorem failed_batch_bars_the_next :
    let start := ready (.opened .normal .bitcoin 0 0) .empty
    let stopping := handingTwo ++ .call .stopWorkers :: batchRounds 6
    let stopped := (driver.run stopping start).shared
    let failed := (driver.run (stopping ++ failingThird) start).shared
    (stopped.handed.length = 2 ∧ stopped.committed = stopped.handed ∧ stopped.inFlight = ∅) ∧
      failed.handed.length = 4 ∧ failed.committed <+: failed.handed ∧
        failed.committed.length ≤ 3 ∧
          ∀ block ∈ [blockAt 2 3 2, blockAt 3 4 3], block.id ∈ failed.inFlight := by
  intro start stopping stopped failed
  have hfollows : driven.follows driver (stopping ++ failingThird) start :=
    follows_of_checkRun (operated_of_check _) (stopping ++ failingThird) start
      (by decide +kernel)
  have hstopping : driven.follows driver stopping start :=
    ((Discipline.follows_append driver driven _ _ _).1 hfollows).1
  have hhanding : driven.follows driver handingTwo start :=
    ((Discipline.follows_append driver driven _ _ _).1 hstopping).1
  have hquiet : ∀ operation, .call operation ∉ batchRounds 6 := by
    intro operation hmem
    simp [batchRounds] at hmem
  have hreturned : (driver.run stopping start).prog = .pure () :=
    Prog.eq_pure_of_returned (by decide +kernel)
  obtain ⟨-, -, -, -, -, -, -, hstop⟩ := pipeline_commits_in_order _ _ handingTwo hhanding
  obtain ⟨hinitial, -, -, hbarred, hcovered, -⟩ :=
    pipeline_commits_in_order _ _ (stopping ++ failingThird) hfollows
  have hcounts : stopped.handed.length = 2 ∧ failed.handed.length = 4 := by decide +kernel
  have hthird : failed.handed[2]? = some ⟨2, [blockAt 2 3 2]⟩ ∧
      ⟨2, [blockAt 2 3 2]⟩ ∈ failed.failed := by
    decide +kernel
  have hblocks : (failed.handed.drop failed.committed.length).flatMap Batch.blocks =
      [blockAt 2 3 2, blockAt 3 4 3] := by
    decide +kernel
  refine ⟨⟨hcounts.1, hstop (batchRounds 6) hquiet hstopping hreturned⟩, hcounts.2, hinitial,
    hbarred 2 _ hthird.1 hthird.2, fun block hmem => ?_⟩
  rw [← hblocks] at hmem
  obtain ⟨batch, hbatch, hblock⟩ := List.mem_flatMap.1 hmem
  exact hcovered batch hbatch block hblock

end BitcoinIndexer.PipelineOrder
