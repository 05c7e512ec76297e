import BitcoinIndexer.Chain.Guarantees
import BitcoinIndexer.Core.StepRelations
import BitcoinIndexer.Modes.Keeping

/-!
# The writers of the event log

Batches and reorgs insert into `event`, each in a transaction of its own.  Workers are
started, and the transaction of a reorg is begun, only where there are no workers, so that
no two of these transactions are ever open together; and so the log that others see
grows at its end and nowhere else.
-/

namespace BitcoinIndexer.EventLog

open BitcoinIndexer.Types
open BitcoinIndexer.Tables
open BitcoinIndexer.Formatter
open BitcoinIndexer.Representation
open BitcoinIndexer.Worker
open BitcoinIndexer.Store
open BitcoinIndexer.Pipeline
open BitcoinIndexer.ChainState
open BitcoinIndexer.Grounding
open BitcoinIndexer.Following
open BitcoinIndexer.Opening
open BitcoinIndexer.Schedules
open BitcoinIndexer.Keeping
open BitcoinIndexer.Interleaving

/-- The transaction of the caller is beside no workers, and has the whole log. -/
def Exclusive (w : World) : Prop :=
  ∀ transaction, w.txn = some transaction →
    w.workers = none ∧ w.db.event <+: transaction.event

/-- The visible log grows at its end. -/
def Grows (w after : World) : Prop :=
  Exclusive w → Exclusive after ∧ w.db.event <+: after.db.event

/-- To start workers or a transaction. -/
def Opens : (γ : Type) → Act γ → Prop
  | _, .spawn _ _ => True
  | _, .begin => True
  | _, _ => False

def Proper (γ : Type) (access : Act γ) (w after : World) : Prop :=
  (Opens γ access → w.workers = none) ∧ Grows w after

/-- A statement that keeps the events that are there. -/
def AppendsEvents : (Db → Except SqlError Db) → Prop :=
  Relates fun db after => db.event <+: after.event

/-- A statement outside transactions: those of the indexer write no events. -/
def KeepsEvents : (Db → Except SqlError Db) → Prop :=
  Relates fun db after => after.event = db.event

theorem respected_events : Respected fun db after => db.event <+: after.event where
  trans := fun hfirst hsecond => hfirst.trans hsecond
  events := fun _ _ db => List.prefix_append db.event _
  tables := fun _ hevent => by rw [hevent]

variable {S : Setting} {w after : World} {store : IndexerStore} {α γ : Type} {prog : StoreM α}

theorem Grows.refl (w : World) : Grows w w := fun h => ⟨h, List.prefix_rfl⟩

theorem Grows.trans {first second third : World} (h : Grows first second)
    (h' : Grows second third) : Grows first third := by
  intro hexclusive
  obtain ⟨hsecond, hgrown⟩ := h hexclusive
  obtain ⟨hthird, hgrown'⟩ := h' hsecond
  exact ⟨hthird, hgrown.trans hgrown'⟩

theorem exclusive_of_none (h : w.txn = none) : Exclusive w := by
  intro transaction htxn
  rw [h] at htxn
  exact absurd htxn (by simp)

theorem grows_abort (w : World) : Grows w (abort w) := by
  intro _
  rw [event_abort]
  exact ⟨exclusive_of_none (txn_abort w), List.prefix_rfl⟩

theorem grows_step (w : World) (event : WorkerEvent) : Grows w (w.step event) := by
  intro h
  refine ⟨?_, respected_events.step w event⟩
  cases htxn : w.txn with
  | none =>
      apply exclusive_of_none
      rw [txn_step, htxn]
  | some transaction =>
      rw [step_none (h transaction htxn).1]
      exact h

/-! ## Accesses that open nothing -/

def Neutral : (γ : Type) → Act γ → Prop
  | _, .spawn _ _ => False
  | _, .begin => False
  | _, .execute statement => KeepsEvents statement
  | _, .transExecute statement => AppendsEvents statement
  | _, _ => True

theorem allowsSimple_neutral : AllowsSimple Neutral := by
  intro γ access hsimple
  cases access with
  | spawn | begin | execute | transExecute => exact hsimple.elim
  | _ => trivial

theorem allowsReorg_neutral : AllowsReorg Neutral := by
  intro γ access hreorg
  cases access with
  | transExecute statement => exact respected_events.reorg hreorg
  | transQuery => trivial
  | _ => exact hreorg.elim

/-- Such an access starts nothing, and only adds to the log. -/
structure Leaves (w after : World) : Prop where
  grows : Grows w after
  workers : w.workers = none → after.workers = none
  txn : w.txn = none → after.txn = none

theorem leaves_abort (w : World) : Leaves w (abort w) where
  grows := grows_abort w
  workers := fun h => by rwa [workers_abort]
  txn := fun _ => txn_abort w

theorem leaves_transExecute {statement : Db → Except SqlError Db} (h : AppendsEvents statement)
    (fails : Bool) (w : World) : Leaves w ((exec (.transExecute statement) fails w).after w) := by
  obtain heffect | ⟨before, written, htxn, hstatement, heffect⟩ := after_transExecute statement fails w
  · rw [heffect]
    exact leaves_abort w
  · rw [heffect]
    refine ⟨fun hexclusive => ⟨fun transaction htransaction => ?_, List.prefix_rfl⟩, id, ?_⟩
    · obtain ⟨hworkers, hgrown⟩ := hexclusive before htxn
      rw [← Option.some.inj htransaction]
      exact ⟨hworkers, hgrown.trans (h before written hstatement)⟩
    · rw [htxn]
      exact fun hnone => absurd hnone (by simp)

def isTransExecute : Act γ → Bool
  | .transExecute _ => true
  | _ => false

/-- The other accesses, by what they may leave behind. -/
theorem leaves_accessed {access : Act γ} (haccessed : Accessed w access after)
    (hneutral : Neutral γ access) (hother : isTransExecute access = false) : Leaves w after := by
  cases haccessed with
  | stay => exact ⟨.refl w, id, id⟩
  | locked => exact ⟨fun h => ⟨h, List.prefix_rfl⟩, id, id⟩
  | aborted => exact leaves_abort w
  | spawned | began => exact hneutral.elim
  | wrote => simp [isTransExecute] at hother
  | handed batch p hworkers hrecv =>
      refine ⟨fun h => ⟨fun transaction htxn => ?_, List.prefix_rfl⟩, fun hnone => ?_, id⟩
      · have hnone := (h transaction htxn).1
        rw [hworkers] at hnone
        exact absurd hnone (by simp)
      · rw [hworkers] at hnone
        exact absurd hnone (by simp)
  | dropped =>
      have hdropped : w.workers = none → (dropSender w).workers = none := by
        intro hnone
        rw [dropSender, hnone]
        rfl
      refine ⟨fun h => ⟨fun transaction htxn => ?_, List.prefix_rfl⟩, hdropped, id⟩
      obtain ⟨hnone, hgrown⟩ := h transaction htxn
      exact ⟨hdropped hnone, hgrown⟩
  | joined =>
      refine ⟨fun h => ⟨fun transaction htxn => ?_, List.prefix_rfl⟩, fun _ => rfl, id⟩
      exact ⟨rfl, (h transaction htxn).2⟩
  | executed statement db hstatement =>
      have hsame : (w.publish db).db.event = w.db.event := hneutral w.db db hstatement
      refine ⟨fun h => ⟨fun transaction htxn => ?_, ?_⟩, id, id⟩
      · rw [hsame]
        exact h transaction htxn
      · rw [hsame]
  | committed transaction htxn =>
      refine ⟨fun h => ⟨exclusive_of_none rfl, (h transaction htxn).2⟩, id, fun _ => rfl⟩

theorem leaves_exec {access : Act γ} (hneutral : Neutral γ access) (fails : Bool) (w : World) :
    Leaves w ((exec access fails w).after w) := by
  cases access with
  | transExecute statement => exact leaves_transExecute hneutral fails w
  | _ => exact leaves_accessed (accessed_exec _ fails w) hneutral rfl

theorem proper_exec {access : Act γ} (hneutral : Neutral γ access) (fails : Bool) (w : World) :
    Proper γ access w ((exec access fails w).after w) := by
  refine ⟨fun hopens => ?_, (leaves_exec hneutral fails w).grows⟩
  cases access with
  | spawn | begin => exact hneutral.elim
  | _ => exact hopens.elim

/-! ## Programs -/

/-- No transaction is open. -/
def Closed (w : World) : Prop := w.txn = none

/-- And there are no workers. -/
def Alone (w : World) : Prop := w.txn = none ∧ w.workers = none

abbrev Stepping (S : Setting) {α : Type} (Q : α → IndexerStore → World → Prop) (prog : StoreM α)
    (store : IndexerStore) (w : World) : Prop :=
  Steps system (prefetched S) Proper Q prog store w

variable {Q : α → IndexerStore → World → Prop}

theorem stable_closed : (prefetched S).Stable system Closed := by
  intro event w _ h
  change (w.step event).txn = none
  rwa [txn_step]

theorem stable_alone : (prefetched S).Stable system Alone := stable_closed.and stable_stopped

/-- Neutral accesses keep what is not there away. -/
theorem stepping_of_ensures {Q : α → IndexerStore → Prop} {P : World → Prop}
    (hstable : (prefetched S).Stable system P) (hleaves : ∀ {w after}, Leaves w after → P w → P after)
    (h : Ensures Neutral Q prog store) (hP : P w) :
    Stepping S (fun value after w => Q value after ∧ P w) prog store w :=
  h.steps hstable (fun _ fails w hneutral hP =>
    ⟨proper_exec hneutral fails w, hleaves (leaves_exec hneutral fails w) hP⟩) hP

/-- What follows a part that opens nothing. -/
theorem stepping_then {β : Type} {rest : α → StoreM β} {Q : β → IndexerStore → World → Prop}
    {P : World → Prop} (hstable : (prefetched S).Stable system P)
    (hleaves : ∀ {w after}, Leaves w after → P w → P after) (h : Keeps Neutral prog) (hP : P w)
    (hrest : ∀ value store w, P w → Stepping S Q (rest value) store w) :
    Stepping S Q (prog.bind rest) store w := by
  apply Steps.bind _ (stepping_of_ensures hstable hleaves (h store) hP)
  exact fun value middle w hmiddle => hrest value middle w hmiddle.2

theorem Closed.leaves (hleaves : Leaves w after) (h : Closed w) : Closed after := hleaves.txn h

theorem Alone.leaves (hleaves : Leaves w after) (h : Alone w) : Alone after :=
  ⟨hleaves.txn h.1, hleaves.workers h.2⟩

theorem stepping_closed {β : Type} {rest : α → StoreM β} {Q : β → IndexerStore → World → Prop}
    (h : Keeps Neutral prog) (hclosed : Closed w)
    (hrest : ∀ value store w, Closed w → Stepping S Q (rest value) store w) :
    Stepping S Q (prog.bind rest) store w :=
  stepping_then stable_closed Closed.leaves h hclosed hrest

theorem keeps_neutral {β : Type} {access : Act β} (hneutral : Neutral β access) :
    Keeps Neutral (perform access) := Keeps.perform hneutral

theorem keeps_execute {statement : Db → Except SqlError Db} (h : KeepsEvents statement) :
    Keeps Neutral (perform (.execute statement)) := Keeps.perform h

/-! ### Workers -/

theorem stepping_startWorkers (h : Alone w) :
    Stepping S (fun _ _ => Closed) startWorkers store w := by
  simp only [startWorkers, Prog.bind_eq, Prog.read_bind, steps_loc]
  apply Steps.act stable_alone _ h
  intro ready hready fails _
  exact ⟨⟨fun _ => hready.2, fun _ => ⟨exclusive_of_none hready.1, List.prefix_rfl⟩⟩, hready.1⟩

/-- After the drop of the pipeline there is nobody left. -/
theorem stepping_stopWorkers (h : Closed w) :
    Stepping S (fun _ _ => Alone) stopWorkers store w := by
  simp only [stopWorkers, Prog.bind_eq]
  apply stepping_closed (keeps_neutral (by trivial)) h
  intro _ _ dropped hdropped
  apply stepping_closed (keeps_neutral (by trivial)) hdropped
  intro _ _ first hfirst
  apply stepping_closed (keeps_neutral (by trivial)) hfirst
  intro _ _ second hsecond
  simp only [Prog.perform_bind]
  apply Steps.act stable_closed _ hsecond
  intro third hthird fails _
  have hneutral : Neutral Unit (.join .writer) := trivial
  refine ⟨proper_exec hneutral fails third, ?_⟩
  have hleft := leaves_exec hneutral fails third
  simp only [system, systemOf_exec]
  cases hexec : exec (.join .writer) fails third with
  | done value joined =>
      rw [hexec] at hleft
      have halone : Alone joined := ⟨hleft.txn hthird, workers_join hexec⟩
      have hassert : Keeps Neutral (perform .assertInFlightEmpty) := keeps_neutral trivial
      apply (stepping_of_ensures stable_alone Alone.leaves (hassert _) halone).mono
      exact fun _ _ _ hafter => hafter.2
  | _ => trivial

theorem stepping_flushWorkers (h : Closed w) :
    Stepping S (fun _ _ => Closed) flushWorkers store w := by
  simp only [flushWorkers, Prog.bind_eq]
  apply stepping_closed (keeps_neutral (by trivial)) h
  intro stopped _ asked hasked
  cases stopped with
  | true => exact hasked
  | false =>
      simp only [Bool.false_eq_true, if_false]
      apply stepping_closed (keeps_flushBatch allowsSimple_neutral) hasked
      intro _ _ flushed hflushed
      apply stepping_closed (keeps_neutral (by trivial)) hflushed
      intro empty _ looked hlooked
      cases empty with
      | true => exact hlooked
      | false =>
          simp only [Bool.false_eq_true, if_false, flushWorkersUnconditionally, Prog.bind_eq]
          apply Steps.bind _ (stepping_stopWorkers hlooked)
          exact fun _ _ _ halone => stepping_startWorkers halone

theorem keepsEvents_setSchema {mode : Mode} (hmode : mode ≠ .freshBulk) :
    KeepsEvents (Db.setSchema mode) := by
  intro db after hok
  cases mode <;> simp only [Db.setSchema] at hok
  case freshBulk => exact absurd rfl hmode
  all_goals
    split_ifs at hok
    rw [← Except.ok.inj hok]

theorem keepsEvents_ok {change : Db → Db} (h : ∀ db, (change db).event = db.event) :
    KeepsEvents fun db => .ok (change db) :=
  relates_ok h

theorem stepping_setMode {mode : Mode} (hmode : mode ≠ .freshBulk) (h : Closed w) :
    Stepping S (fun _ _ => Closed) (setMode mode) store w := by
  simp only [setMode, Prog.bind_eq, Prog.read_bind, steps_loc]
  split_ifs
  · exact h
  · simp only [setModeUncodintionally, Prog.bind_eq, Prog.modify_bind, steps_loc]
    apply Steps.bind _ (stepping_flushWorkers h)
    intro _ _ flushed hflushed
    apply stepping_closed (keeps_execute (keepsEvents_setSchema hmode)) hflushed
    intro _ switched changed hchanged
    have hupdate : Keeps Neutral (perform (.execute (updateBulkMode mode))) :=
      keeps_execute (keepsEvents_ok fun _ => rfl)
    apply (stepping_of_ensures stable_closed Closed.leaves (hupdate switched) hchanged).mono
    exact fun _ _ _ hafter => hafter.2

/-! ### Inserting -/

theorem stepping_insertBelowTip (h : Closed w) (block : BlockData) :
    Stepping S (fun _ _ => Closed) (insertBelowTip block) store w := by
  simp only [insertBelowTip, Prog.bind_eq]
  apply stepping_closed (keeps_flushBatch allowsSimple_neutral) h
  intro _ _ flushed hflushed
  apply Steps.bind _ (stepping_stopWorkers hflushed)
  intro _ _ stopped hstopped
  apply stepping_then stable_alone Alone.leaves
    (keeps_readDbBlockHashByHeight allowsSimple_neutral block.height) hstopped
  intro dbHash found read hread
  cases dbHash with
  | none => trivial
  | some dbHash =>
      simp only
      split_ifs
      · exact stepping_startWorkers hread
      · apply (stepping_of_ensures stable_closed Closed.leaves (keeps_startReorg block found)
          hread.1).mono
        exact fun _ _ _ hafter => hafter.2

theorem stepping_insertExtending (h : Closed w) (block : BlockData) :
    Stepping S (fun _ _ => Closed) (insertExtending block) store w := by
  simp only [insertExtending, Prog.bind_eq, Prog.read_bind, Prog.modify_bind, steps_loc]
  apply stepping_closed (Keeps.whenever _ (keeps_flushBatch allowsSimple_neutral)) h
  intro _ _ flushed hflushed
  cases decide ((store.push block).nodeChainHeadHeight = block.height) with
  | false => exact hflushed
  | true => exact stepping_setMode (by simp) hflushed

theorem stepping_insertWhenAtTip (h : Closed w) (block : BlockData) :
    Stepping S (fun _ _ => Closed) (insertWhenAtTip block) store w := by
  simp only [insertWhenAtTip, Prog.bind_eq, Prog.read_bind, steps_loc]
  apply stepping_closed (Keeps.assertThat _ _) h
  intro _ _ first hfirst
  apply stepping_closed (keeps_neutral (by trivial)) hfirst
  intro stopped _ second hsecond
  apply stepping_closed (Keeps.assertThat _ _) hsecond
  intro _ _ third hthird
  apply stepping_closed (Keeps.assertThat _ _) hthird
  intro _ _ ready hready
  split_ifs
  · exact stepping_insertBelowTip hready block
  · exact stepping_insertExtending hready block

/-- The queries of the new blocks, and the commit that closes the transaction. -/
theorem stepping_insertBlocks (h : w.workers = none) (blocks : List BlockData) :
    Stepping S (fun _ _ => Alone) (insertBlocks blocks) store w := by
  simp only [insertBlocks, Prog.bind_eq, Prog.read_bind, steps_loc]
  apply stepping_then stable_stopped Leaves.workers (keeps_processBlocks allowsReorg_neutral blocks _) h
  intro inputsUtxoMap _ fetched hfetched
  cases fmtInsertBlockdataSql blocks inputsUtxoMap (txIdMapFromBlocks blocks store.network)
    store.mode store.network with
  | error reason => trivial
  | ok queries =>
      have hqueries : ∀ statement ∈ queries.toList, ReorgStatement statement :=
        fun statement hmem => .query queries statement hmem
      apply stepping_then stable_stopped Leaves.workers (keeps_executeQueries allowsReorg_neutral hqueries)
        hfetched
      intro _ _ executed hexecuted
      apply Steps.act stable_stopped _ hexecuted
      intro ready hready fails _
      have hneutral : Neutral Unit .commit := trivial
      refine ⟨proper_exec hneutral fails ready, ?_⟩
      simp only [system, systemOf_exec, exec]
      cases htxn : ready.txn <;> cases fails
      case some.false transaction => exact ⟨rfl, hready⟩
      all_goals trivial

/-- Nobody can write to the log while the transaction is open. -/
theorem stepping_begin {next : Unit → StoreM α} (h : w.workers = none)
    (hnext : ∀ w, w.workers = none → Stepping S Q (next ()) store w) :
    Stepping S Q ((perform .begin).bind next) store w := by
  apply Steps.act stable_stopped _ h
  intro ready hready fails _
  cases fails with
  | true => exact ⟨⟨fun _ => hready, .refl ready⟩, trivial⟩
  | false =>
      refine ⟨⟨fun _ => hready, fun _ => ⟨fun transaction htxn => ?_, List.prefix_rfl⟩⟩, ?_⟩
      · rw [← Option.some.inj htxn]
        exact ⟨hready, List.prefix_rfl⟩
      · exact hnext _ hready

theorem stepping_finishReorg (h : w.workers = none) :
    Stepping S (fun _ _ => Closed) finishReorg store w := by
  simp only [finishReorg, Prog.bind_eq, Prog.read_bind, Prog.modify_bind, steps_loc]
  apply stepping_then stable_stopped Leaves.workers (Keeps.assertThat _ _) h
  intro _ _ first hfirst
  apply stepping_then stable_stopped Leaves.workers (keeps_neutral (by trivial)) hfirst
  intro stopped _ second hsecond
  apply stepping_then stable_stopped Leaves.workers (Keeps.assertThat _ _) hsecond
  intro _ _ third hthird
  apply stepping_begin hthird
  intro begun hbegun
  apply stepping_then stable_stopped Leaves.workers (keeps_firstDifferentHeight allowsReorg_neutral _) hbegun
  intro firstDifferent _ looked hlooked
  apply stepping_then stable_stopped Leaves.workers (Keeps.statement allowsReorg_neutral (.revert _)) hlooked
  intro _ _ reverted hreverted
  apply stepping_then stable_stopped Leaves.workers (Keeps.statement allowsReorg_neutral (.mark _)) hreverted
  intro _ _ marked hmarked
  rw [Stepping, steps_loc]
  apply stepping_then stable_stopped Leaves.workers (keeps_reviveOrCollect allowsReorg_neutral _ _) hmarked
  intro _ _ revived hrevived
  rw [Stepping, steps_loc, steps_loc]
  apply stepping_then stable_stopped Leaves.workers (Keeps.assertThat _ _) hrevived
  intro _ _ raised hraised
  rw [Stepping, steps_loc]
  apply Steps.bind _ (stepping_insertBlocks hraised _)
  exact fun _ _ _ halone => stepping_startWorkers halone

theorem stepping_insertWhenInReorg (hnone : w.workers = none) (hclosed : Closed w)
    (block : BlockData) : Stepping S (fun _ _ => Closed) (insertWhenInReorg block) store w := by
  simp only [insertWhenInReorg, Prog.bind_eq, Prog.read_bind, Prog.modify_bind, steps_loc]
  apply stepping_then stable_alone Alone.leaves (Keeps.assertThat _ _) ⟨hclosed, hnone⟩
  intro _ _ first hfirst
  apply stepping_then stable_alone Alone.leaves (keeps_neutral (by trivial)) hfirst
  intro stopped _ second hsecond
  apply stepping_then stable_alone Alone.leaves (Keeps.assertThat _ _) hsecond
  intro _ _ third hthird
  apply stepping_then stable_alone Alone.leaves (Keeps.assertThat _ _) hthird
  intro _ _ ready hready
  rw [Stepping, steps_loc]
  cases decide (block.height = store.chainBlockCount) with
  | false => exact hready.1
  | true => exact stepping_finishReorg hready.2

theorem stepping_insert (hreorg : store.isInReorg = true → w.workers = none) (h : Closed w)
    (block : BlockData) : Stepping S (fun _ _ => Closed) (Store.insert block) store w := by
  simp only [Store.insert, Prog.bind_eq, Prog.read_bind, steps_loc]
  split_ifs with hin
  · exact stepping_insertWhenInReorg (hreorg hin) h block
  · exact stepping_insertWhenAtTip h block

theorem stepping_getHashByHeight (h : Closed w) (height : BlockHeight) :
    Stepping S (fun _ _ => Closed) (getHashByHeight height) store w := by
  simp only [getHashByHeight, Prog.bind_eq, Prog.read_bind, steps_loc]
  split_ifs
  · exact h
  · cases store.pendingReorg.get height with
    | some block => exact h
    | none =>
        apply Steps.bind _ (stepping_flushWorkers h)
        intro _ flushed read hread
        apply (stepping_of_ensures stable_closed Closed.leaves
          (keeps_readDbBlockHashByHeight allowsSimple_neutral height flushed) hread).mono
        exact fun _ _ _ hafter => hafter.2

/-! ### Opening -/

/-- Alone with a database of which something is known. -/
def Finds (holds : Db → Prop) (w : World) : Prop := Alone w ∧ holds w.db

def Silent (db : Db) : Prop := db.event = []

/-- The tables are dropped only where there are no events. -/
def Droppable (mode : Mode) (db : Db) : Prop := Silent db ∨ mode ≠ .freshBulk

/-- What a new process finds: a mode without dropping, unless there are no events. -/
def Found (db : Db) : Prop := Silent db ∨ db.block ≠ [] ∧ db.bulkMode ≠ none

theorem stable_finds (holds : Db → Prop) : (prefetched S).Stable system (Finds holds) := by
  intro event w _ h
  change Finds holds (w.step event)
  rwa [step_none h.1.2]

theorem stepping_query {β : Type} {holds : Db → Prop} {select : Db → β} {next : β → StoreM α}
    (h : Finds holds w)
    (hnext : ∀ w, Finds holds w → Stepping S Q (next (select w.db)) store w) :
    Stepping S Q ((perform (.query fun db => .ok (select db))).bind next) store w := by
  apply Steps.act (stable_finds holds) _ h
  intro ready hready fails _
  cases fails with
  | true => exact ⟨⟨fun hopens => hopens.elim, .refl ready⟩, trivial⟩
  | false => exact ⟨⟨fun hopens => hopens.elim, .refl ready⟩, hnext ready hready⟩

/-- A statement that may do anything to a log without events. -/
theorem stepping_execute {holds : Db → Prop} (after : Db → Prop) {statement : Db → Except SqlError Db}
    {next : Unit → StoreM α} (h : Finds holds w)
    (happends : ∀ db written, holds db → statement db = .ok written →
      db.event <+: written.event ∧ after written)
    (hnext : ∀ w, Finds after w → Stepping S Q (next ()) store w) :
    Stepping S Q ((perform (.execute statement)).bind next) store w := by
  apply Steps.act (stable_finds holds) _ h
  intro ready hready fails _
  cases fails with
  | true => exact ⟨⟨fun hopens => hopens.elim, .refl ready⟩, trivial⟩
  | false =>
      simp only [system, systemOf_exec, exec, execStatement]
      cases hstatement : statement ready.db with
      | error error => exact ⟨⟨fun hopens => hopens.elim, .refl ready⟩, trivial⟩
      | ok written =>
          obtain ⟨hgrown, hafter⟩ := happends ready.db written hready.2 hstatement
          have hclosed : (ready.publish written).txn = none := hready.1.1
          exact ⟨⟨fun hopens => hopens.elim, fun _ => ⟨exclusive_of_none hclosed, hgrown⟩⟩,
            hnext _ ⟨hready.1, hafter⟩⟩

theorem event_setSchema {mode : Mode} {db after : Db} (h : Droppable mode db)
    (hok : db.setSchema mode = .ok after) :
    db.event <+: after.event ∧ (Silent db → Silent after) := by
  by_cases hmode : mode = .freshBulk
  · have hsilent : Silent db := h.resolve_right (not_not.2 hmode)
    rw [hmode] at hok
    obtain rfl := Except.ok.inj hok
    rw [show db.event = [] from hsilent]
    exact ⟨List.prefix_rfl, fun _ => rfl⟩
  · rw [Silent, Silent, keepsEvents_setSchema hmode db after hok]
    exact ⟨List.prefix_rfl, id⟩

/-- Without workers there is nothing to flush. -/
theorem stepping_setMode_silent (h : Finds Silent w) (mode : Mode) :
    Stepping S (fun _ _ => Finds Silent) (setModeUncodintionally mode) store w := by
  simp only [setModeUncodintionally, flushWorkers, Prog.bind_eq, Prog.modify_bind, steps_loc,
    Prog.perform_bind, Prog.act_bind]
  apply Steps.act (stable_finds _) _ h
  intro asked hasked fails _
  refine ⟨⟨fun hopens => hopens.elim, .refl asked⟩, ?_⟩
  simp only [system, systemOf_exec, exec, hasked.1.2, Option.any_none, Bool.not_false, if_true,
    Prog.pure_eq, Prog.pure_bind]
  apply stepping_execute Silent hasked
  · intro db after hsilent hok
    have hevent := event_setSchema (.inl hsilent) hok
    exact ⟨hevent.1, hevent.2 hsilent⟩
  · intro switched hswitched
    apply stepping_execute Silent hswitched
    · intro db after hsilent hok
      obtain rfl := Except.ok.inj hok
      exact ⟨List.prefix_rfl, hsilent⟩
    · exact fun _ hafter => hafter

theorem stepping_selfTest (h : Finds Silent w) :
    Stepping S (fun _ _ => Finds Silent) selfTest store w := by
  simp only [selfTest, Prog.bind_eq, Prog.read_bind, steps_loc]
  cases decide (store.mode = .freshBulk) with
  | false => trivial
  | true =>
      apply Steps.bind _ (stepping_setMode_silent h .freshBulk)
      intro _ _ first hfirst
      apply Steps.bind _ (stepping_setMode_silent hfirst .bulk)
      intro _ _ second hsecond
      apply Steps.bind _ (stepping_setMode_silent hsecond .normal)
      intro _ _ third hthird
      apply Steps.bind _ (stepping_setMode_silent hthird .bulk)
      exact fun _ _ _ hfourth => stepping_setMode_silent hfourth .freshBulk

theorem stepping_readIndexerState {next : Mode → StoreM α} (h : Finds Found w)
    (hnext : ∀ mode w, Finds (Droppable mode) w → Stepping S Q (next mode) store w) :
    Stepping S Q (readIndexerState.bind next) store w := by
  simp only [readIndexerState, Prog.bind_eq, Prog.bind_assoc]
  apply stepping_query h
  intro read hread
  cases hmode : indexerStateMode read.db with
  | some mode =>
      refine hnext mode read ⟨hread.1, hread.2.imp id fun hstored hfresh => ?_⟩
      obtain ⟨bulk, -, hbulk⟩ := Option.map_eq_some_iff.1 hmode
      have hlength : read.db.block.length ≠ 0 := fun hzero =>
        hstored.1 (List.eq_nil_of_length_eq_zero hzero)
      rw [if_neg hlength, hfresh] at hbulk
      cases bulk <;> simp at hbulk
  | none =>
      have hsilent : Finds Silent read := by
        refine ⟨hread.1, hread.2.resolve_right fun hstored => hstored.2 ?_⟩
        exact Option.map_eq_none_iff.1 hmode
      simp only [Prog.bind_assoc]
      apply stepping_execute Silent hsilent
      · intro db after hsilent hok
        obtain rfl := Except.ok.inj hok
        exact ⟨List.prefix_rfl, hsilent⟩
      · exact fun w hw => hnext .freshBulk w ⟨hw.1, .inl hw.2⟩

theorem stepping_new (h : Finds Found w) (nodeChainHeadHeight : BlockHeight) (network : Network) :
    Stepping S (fun _ _ => Closed) (new nodeChainHeadHeight network) store w := by
  simp only [new, Prog.bind_eq]
  apply stepping_execute Found h
  · intro db after hfound hok
    obtain rfl := Except.ok.inj hok
    exact ⟨List.prefix_rfl, hfound⟩
  intro created hcreated
  apply stepping_readIndexerState hcreated
  intro mode read hread
  apply stepping_query hread
  intro counted hcounted
  apply stepping_query hcounted
  intro looked hlooked
  cases decide (counted.db.readDbChainBlockCount = looked.db.readDbChainCurrentBlockCount) with
  | false => trivial
  | true =>
      simp only [assertThat_true, Prog.pure_bind, Prog.modify_bind, steps_loc]
      have htest : Stepping S (fun _ after => Finds (Droppable after.mode))
          (whenever (decide (mode = .freshBulk)) selfTest)
          (.opened mode network nodeChainHeadHeight counted.db.readDbChainBlockCount) looked := by
        by_cases hmode : mode = .freshBulk
        · rw [decide_eq_true hmode, whenever_true]
          have hsilent : Finds Silent looked :=
            ⟨hlooked.1, hlooked.2.resolve_right (not_not.2 hmode)⟩
          apply (stepping_selfTest hsilent).mono
          exact fun _ _ _ hafter => ⟨hafter.1, .inl hafter.2⟩
        · rw [decide_eq_false hmode, whenever_false]
          exact hlooked
      apply Steps.bind _ htest
      intro _ tested w hw
      simp only [Prog.read_bind, steps_loc]
      apply stepping_execute (fun _ => True) hw
      · exact fun db after hdroppable hok => ⟨(event_setSchema hdroppable hok).1, trivial⟩
      · exact fun _ hready => stepping_startWorkers hready.1

/-! ## Runs -/

theorem events_of_known {t : BlockTree} {db : Db} (h : Shows t.known t.chain db)
    (hknown : t.known = []) : Silent db := by
  have hchain : t.chain = [] := chain_of_known hknown
  have hlog := h.logged.log
  rw [hknown, hchain] at hlog
  cases hevent : db.event with
  | nil => exact hevent
  | cons row rows =>
      rw [hevent, List.map_cons] at hlog
      cases hrevert : row.revert with
      | true => simp [CancelingLog.Replays, entryOf, hrevert, hashIds] at hlog
      | false => simp [CancelingLog.Replays, entryOf, hrevert, Links] at hlog

theorem Settled.found {t : BlockTree} (h : Settled S t w) : Found w.db := by
  by_cases hknown : t.known = []
  · exact .inl (events_of_known h.committed.shows hknown)
  · refine .inr ⟨fun hblock => hknown ?_, fun hbulk => hknown (h.committed.unready hbulk)⟩
    rw [h.committed.shows.rows] at hblock
    exact List.map_eq_nil_iff.1 hblock

theorem grows_enter (call : Call) (w : World) : Grows w (enter call w) := by
  cases call with
  | start nodeChainHeadHeight network resume =>
      intro _
      have hevent : (restart resume w).db.event = w.db.event := event_abort w
      change Exclusive (restart resume w) ∧ _ <+: (restart resume w).db.event
      rw [hevent]
      exact ⟨exclusive_of_none (txn_abort w), List.prefix_rfl⟩
  | _ => exact fun h => ⟨h, List.prefix_rfl⟩

theorem stepping_call {call : Call} {c : StoreConfig} (hcall : (prefetched S).call call c)
    (hsafe : SafeConfig system (prefetched S) (Following.Kept S) (Ends S) (Idle S) c)
    (hsteps : StepsConfig system (prefetched S) Proper (fun _ => Closed) c) :
    Stepping S (fun _ _ => Closed) (body call) c.locals (enter call c.shared) := by
  cases call with
  | start nodeChainHeadHeight network resume =>
      have hkept : Following.Kept S c.shared :=
        hsafe.always (fun _ _ h => h.kept) (fun _ _ _ h => h.1)
      obtain ⟨t, hsettled⟩ := hkept.settled
      have hfresh := fresh_restart hsettled resume
      have hclosed : (restart resume c.shared).txn = none := txn_abort c.shared
      exact stepping_new ⟨⟨hclosed, rfl⟩, Settled.found hfresh.toSettled⟩ nodeChainHeadHeight network
  | insert block =>
      rw [SafeConfig, hcall.1] at hsafe
      rw [StepsConfig, hcall.1] at hsteps
      have hclosed : Closed (enter (.insert block) c.shared) := hsteps
      apply stepping_insert _ hclosed block
      intro hreorg
      obtain ⟨line, htip⟩ | ⟨line, base, pending, hpending⟩ := (hsafe : Idle S c.locals c.shared)
      · rw [htip.isInReorg] at hreorg
        exact absurd hreorg (by simp)
      · exact hpending.stopped
  | getHashByHeight height =>
      have hreturned : c.prog = .pure () := hcall
      rw [StepsConfig, hreturned] at hsteps
      simp only [body, Prog.bind_eq]
      apply Steps.bind _ (stepping_getHashByHeight hsteps height)
      exact fun _ _ _ hafter => hafter

theorem stepping_run (S : Setting) (labels more : List StoreLabel)
    (hfollows : (prefetched S).follows system (labels ++ more) initial) :
    StepsConfig system (prefetched S) Proper (fun _ => Closed)
        (system.run (labels ++ more) initial) ∧
      Grows (system.run labels initial).shared (system.run (labels ++ more) initial).shared := by
  apply StepsConfig.run Grows.refl Grows.trans (fun _ _ _ h => h.2) (fun _ => stable_closed)
    (fun event w _ => grows_step w event) _ _ labels more hfollows
  · intro before call hbefore hcall hsteps _
    exact ⟨grows_enter call _, stepping_call hcall (safe_run S before hbefore) hsteps⟩
  · trivial

theorem exclusive_run (S : Setting) (labels : List StoreLabel)
    (hfollows : (prefetched S).follows system labels initial) :
    Exclusive (system.run labels initial).shared := by
  have hgrows := (stepping_run S [] labels hfollows).2
  exact (hgrows (exclusive_of_none rfl)).1

/-- The log of a state is the beginning of that of every later one. -/
theorem events_grow (S : Setting) (labels more : List StoreLabel)
    (hfollows : (prefetched S).follows system (labels ++ more) initial) :
    (system.run labels initial).shared.db.event <+:
      (system.run (labels ++ more) initial).shared.db.event := by
  have hlabels := ((Discipline.follows_append system _ labels more initial).1 hfollows).1
  exact ((stepping_run S labels more hfollows).2 (exclusive_run S labels hlabels)).2

/-- The writer thread is at a batch, whose transaction may be open. -/
def committing (p : Workers) : Bool :=
  match p.writer with
  | .received _ => true
  | _ => false

/-- The transactions that insert into `event` and may be open: that of a reorg and that of
a batch. -/
def openTransactions (w : World) : ℕ := w.txn.isSome.toNat + (w.workers.any committing).toNat

theorem Exclusive.openTransactions_le (h : Exclusive w) : openTransactions w ≤ 1 := by
  cases htxn : w.txn with
  | none =>
      simp only [openTransactions, htxn, Option.isSome_none, Bool.toNat_false, Nat.zero_add]
      exact Bool.toNat_le _
  | some transaction =>
      simp [openTransactions, htxn, (h transaction htxn).1]

/-- Workers are started where there are none. -/
theorem workers_of_spawn (S : Setting) (labels : List StoreLabel)
    (hfollows : (prefetched S).follows system labels initial) {mode : Mode} {network : Network}
    {next : Unit → StoreM Unit}
    (hprog : (system.run labels initial).prog = .act (.spawn mode network) next) :
    (system.run labels initial).shared.workers = none := by
  have hsteps := (stepping_run S [] labels hfollows).1
  rw [List.nil_append] at hsteps
  generalize system.run labels initial = c at hprog hsteps
  obtain ⟨locals, w, prog⟩ := c
  obtain rfl : prog = .act (.spawn mode network) next := hprog
  exact (hsteps.related trivial false).1 trivial

end BitcoinIndexer.EventLog
