import BitcoinIndexer.Chain.CurrentHeight

/-!
# Reorgs that fail

A statement of `finish_reorg` that fails takes the transaction back, but not what has been
done to the store: the pending blocks are given away between the statement that marks the
replaced blocks and the ones that store the new ones.
-/

namespace BitcoinIndexer.FailedReorg

open BitcoinIndexer.Types
open BitcoinIndexer.Tables
open BitcoinIndexer.Formatter
open BitcoinIndexer.UtxoCache
open BitcoinIndexer.OrderedMap
open BitcoinIndexer.Worker
open BitcoinIndexer.Store
open BitcoinIndexer.Pipeline
open BitcoinIndexer.Grounding
open BitcoinIndexer.Following
open BitcoinIndexer.Opening
open BitcoinIndexer.CurrentHeight
open BitcoinIndexer.Reorg
open BitcoinIndexer.Schedules
open BitcoinIndexer.Guarantees
open BitcoinIndexer.Interleaving

variable {α β : Type} {w : World} {store : IndexerStore} {db : Db} {block : BlockData}

/-- The store with the block that overtakes among the pending ones. -/
def attempting (block : BlockData) (store : IndexerStore) : IndexerStore :=
  { store with pendingReorg := (store.pendingReorg.below block.height).insert block.height block }

/-- The statements of `finish_reorg` before the pending blocks are given away. -/
def markReplaced : StoreM (IndexerStore × BlockHeight) := do
  let store ← readStore
  assertThat store.isInReorg .debugAssert
  let stopped ← areWorkersStopped
  assertThat stopped .debugAssert
  perform .begin
  let firstDifferent ← firstDifferentHeight store.pendingReorg.entries
  let firstDifferent := firstDifferent.getD store.chainBlockCount
  perform (.transExecute fun db => .ok (db.insertRevertEvents firstDifferent))
  perform (.transExecute fun db => .ok (db.markExtinct firstDifferent))
  pure (store, firstDifferent)

/-- The rest of it. -/
def replaceMarked (store : IndexerStore) (firstDifferent : BlockHeight) : StoreM Unit := do
  modifyStore fun store => { store with pendingReorg := .empty }
  reviveOrCollect (store.pendingReorg.splitOff firstDifferent).entries none
  modifyStore fun store => { store with chainBlockCount := store.chainBlockCount + 1 }
  let store ← readStore
  assertThat (!store.batch.isEmpty) .emptyBatch
  modifyStore fun store => { store with batch := [] }
  insertBlocks store.batch
  startWorkers

theorem finishReorg_eq :
    finishReorg = markReplaced.bind fun marked => replaceMarked marked.1 marked.2 := by
  simp only [finishReorg, markReplaced, replaceMarked, Prog.bind_eq, Prog.read_bind,
    Prog.loc_bind, Prog.bind_assoc, Prog.perform_bind, Prog.act_bind, Prog.pure_eq, Prog.pure_bind]

/-! ## Ends of a transaction -/

/-- The tables are as before, and nobody else is there. -/
structure RolledBack (db : Db) (w : World) : Prop where
  tables : { w.db with eventIdSeq := db.eventIdSeq } = db
  workers : w.workers = none

/-- A transaction is open. -/
structure Transacting (db : Db) (w : World) : Prop where
  db : w.db = db
  txn : w.txn.isSome = true
  workers : w.workers = none

/-- A statement that fails leaves such a store, and no trace in the database. -/
structure Undoing (holds : IndexerStore → Prop) (db : Db) (reason : Halt) (store : IndexerStore)
    (w : World) : Prop where
  err : ∀ error, reason = .err error → holds store ∧ RolledBack db w
  panicked : ∀ panic, reason = .panicked panic → panic ∉ ofWorkers

abbrev Faulty {α : Type} (holds : IndexerStore → Prop) (db : Db)
    (Q : α → IndexerStore → World → Prop) (prog : StoreM α) (store : IndexerStore)
    (w : World) : Prop :=
  Safe system undisturbed (fun _ => True) (Undoing holds db) Q prog store w

/-- Which panics the program's own are left to the assertions. -/
theorem Undoing.of_ending {holds : IndexerStore → Prop} {reason : Halt}
    (h : Undoing holds db reason store w) (hending : Ending reason) :
    (∃ error, reason = .err error) ∧ holds store ∧ RolledBack db w := by
  cases hending with
  | err error => exact ⟨⟨error, rfl⟩, h.err error rfl⟩
  | panicked panic hmem => exact absurd hmem (h.panicked panic rfl)

variable {holds : IndexerStore → Prop} {Q : α → IndexerStore → World → Prop}

theorem Transacting.rolledBack (h : Transacting db w) : RolledBack db (abort w) := by
  obtain ⟨transaction, htxn⟩ := Option.isSome_iff_exists.1 h.txn
  have habort : abort w = { w with db := w.db.rollback transaction, txn := none } := by
    simp only [abort, htxn]
  rw [habort]
  refine ⟨?_, h.workers⟩
  rw [h.db]
  rfl

theorem Transacting.undoing (h : Transacting db w) (hstore : holds store) (error : SqlError) :
    Undoing holds db (.err error) store (abort w) :=
  ⟨fun _ _ => ⟨hstore, h.rolledBack⟩, by simp⟩

theorem faulty_transQuery {select : Db → Except SqlError β} {next : β → StoreM α}
    (hstore : holds store) (h : Transacting db w)
    (hnext : ∀ value, Faulty holds db Q (next value) store w) :
    Faulty holds db Q (.act (.transQuery select) next) store w := by
  have hundo := h.undoing hstore
  obtain ⟨transaction, htxn⟩ := Option.isSome_iff_exists.1 h.txn
  apply safe_undisturbed
  intro fails
  cases fails with
  | true =>
      simp only [system, systemOf_exec, exec, htxn]
      exact hundo _
  | false =>
      simp only [system, systemOf_exec, exec, htxn, execSelect]
      cases select transaction with
      | error error => exact hundo _
      | ok value => exact hnext value

theorem faulty_transExecute {statement : Db → Except SqlError Db} {next : Unit → StoreM α}
    (hstore : holds store) (h : Transacting db w)
    (hnext : ∀ w, Transacting db w → Faulty holds db Q (next ()) store w) :
    Faulty holds db Q (.act (.transExecute statement) next) store w := by
  have hundo := h.undoing hstore
  obtain ⟨transaction, htxn⟩ := Option.isSome_iff_exists.1 h.txn
  apply safe_undisturbed
  intro fails
  cases fails with
  | true =>
      simp only [system, systemOf_exec, exec, htxn]
      exact hundo _
  | false =>
      simp only [system, systemOf_exec, exec, htxn, execTrans]
      cases statement transaction with
      | error error => exact hundo _
      | ok written => exact hnext _ ⟨h.db, rfl, h.workers⟩

theorem faulty_commit {next : Unit → StoreM α} (hstore : holds store) (h : Transacting db w)
    (hnext : ∀ w, Faulty holds db Q (next ()) store w) :
    Faulty holds db Q (.act .commit next) store w := by
  have hundo := h.undoing hstore
  obtain ⟨transaction, htxn⟩ := Option.isSome_iff_exists.1 h.txn
  apply safe_undisturbed
  intro fails
  cases fails with
  | true =>
      simp only [system, systemOf_exec, exec, htxn]
      exact hundo _
  | false =>
      simp only [system, systemOf_exec, exec, htxn]
      exact hnext _

theorem faulty_panic {reason : Panic} (hreason : reason ∉ ofWorkers) :
    Faulty holds db Q (.halt (.panicked reason)) store w :=
  ⟨by simp, fun _ heq => Halt.panicked.inj heq ▸ hreason⟩

theorem faulty_assertThat (condition : Bool) {reason : Panic} (hreason : reason ∉ ofWorkers)
    {Q : Unit → IndexerStore → World → Prop} (h : Q () store w) :
    Faulty holds db Q (assertThat condition reason) store w := by
  cases condition with
  | true => exact h
  | false => exact faulty_panic hreason

/-! ## Before the pending blocks are given away -/

/-- The reads by height that find the first different block. -/
def reads (db : Db) : List (BlockHeight × BlockData) → ℕ
  | [] => 0
  | (height, block) :: pending =>
      if (hashAtHeight db height).any (· ≠ block.id) then 1 else reads db pending + 1

theorem faulty_joinHash (parts : Option (HashId × List UInt8))
    {Q : Option BlockHash → IndexerStore → World → Prop} (h : ∀ hash, Q hash store w) :
    Faulty holds db Q (joinHash parts) store w := by
  cases parts with
  | none => exact h none
  | some parts =>
      rw [joinHash]
      cases hashIdAndRestToHash parts.1 parts.2 with
      | none => exact faulty_panic (by decide)
      | some hash => exact h _

theorem faulty_firstDifferentHeight (hstore : holds store) (h : Transacting db w)
    (pending : List (BlockHeight × BlockData)) :
    Faulty holds db (fun _ after w => after = store ∧ Transacting db w)
      (firstDifferentHeight pending) store w := by
  induction pending with
  | nil => exact ⟨rfl, h⟩
  | cons entry pending ih =>
      obtain ⟨height, block⟩ := entry
      simp only [firstDifferentHeight, readDbBlockHashByHeightTrans, Prog.bind_eq,
        Prog.perform_bind, Prog.act_bind]
      apply faulty_transQuery hstore h
      intro parts
      have hread : Faulty holds db (fun _ after later => after = store ∧ later = w)
          (joinHash parts) store w := faulty_joinHash parts fun _ => ⟨rfl, rfl⟩
      apply Safe.bind _ hread
      rintro hash _ _ ⟨rfl, rfl⟩
      cases hash with
      | none => exact ih
      | some hash =>
          simp only
          split_ifs
          · exact ⟨rfl, h⟩
          · exact ih

theorem faulty_markReplaced (hstore : holds store) (hdb : w.db = db) (hworkers : w.workers = none) :
    Faulty holds db (fun _ after w => after = store ∧ Transacting db w) markReplaced store w := by
  simp only [markReplaced, Prog.bind_eq, Prog.read_bind, Prog.perform_bind, safe_loc]
  have hasserted : ∀ condition : Bool,
      Faulty holds db (fun _ after later => after = store ∧ later = w)
        (assertThat condition .debugAssert) store w :=
    fun condition => faulty_assertThat condition (by decide) ⟨rfl, rfl⟩
  apply Safe.bind _ (hasserted _)
  rintro _ first asked ⟨rfl, rfl⟩
  apply safe_undisturbed
  intro fails
  simp only [system, systemOf_exec, exec]
  apply Safe.bind _ (hasserted _)
  rintro _ ready stopped ⟨rfl, rfl⟩
  apply safe_undisturbed
  intro fails
  cases fails with
  | true => exact ⟨fun _ _ => ⟨hstore, by rw [hdb], hworkers⟩, by simp⟩
  | false =>
      have hbegun : Transacting db (inTxn stopped.db stopped) := ⟨hdb, rfl, hworkers⟩
      apply Safe.bind _ (faulty_firstDifferentHeight hstore hbegun _)
      rintro firstDifferent found begun ⟨rfl, hfound⟩
      apply faulty_transExecute hstore hfound
      intro reverted hreverted
      apply faulty_transExecute hstore hreverted
      intro marked hmarked
      exact ⟨rfl, hmarked⟩

/-- Nobody fails: the reads find the first different height. -/
theorem alone_firstDifferentHeight {transaction : Db} (hjoins : Joins transaction)
    (pending : List (BlockHeight × BlockData)) :
    alone system (firstDifferentHeight pending) store (inTxn transaction w) =
        some (firstDifferent transaction pending, store, inTxn transaction w) ∧
      accesses system (firstDifferentHeight pending) store (inTxn transaction w) =
        reads transaction pending := by
  induction pending with
  | nil => exact ⟨rfl, rfl⟩
  | cons entry pending ih =>
      obtain ⟨height, block⟩ := entry
      have hread : alone system (readDbBlockHashByHeightTrans height) store (inTxn transaction w) =
            some (hashAtHeight transaction height, store, inTxn transaction w) ∧
          accesses system (readDbBlockHashByHeightTrans height) store (inTxn transaction w) = 1 := by
        cases hhead : (transaction.blocksAtHeight height).head? with
        | none => simp [readDbBlockHashByHeightTrans, alone, accesses, system, exec, execSelect,
            inTxn, hashAtHeight, hhead, joinHash]
        | some parts =>
            obtain ⟨hash, hjoin⟩ := hjoins height parts hhead
            simp [readDbBlockHashByHeightTrans, alone, accesses, system, exec, execSelect, inTxn,
              hashAtHeight, hhead, joinHash, hjoin]
      rw [firstDifferentHeight, Prog.bind_eq, alone_bind hread.1, accesses_bind hread.1, hread.2,
        reads]
      cases hhash : hashAtHeight transaction height with
      | none =>
          simp only [Option.any_none, Bool.false_eq_true, if_false, firstDifferent]
          refine ⟨?_, ?_⟩
          · rw [ih.1]
            simp [firstDifferent, hhash]
          · rw [ih.2, Nat.add_comm]
      | some hash =>
          by_cases hsame : hash = block.id
          · simp only [hsame, ne_eq, not_true, if_false]
            refine ⟨?_, ?_⟩
            · rw [ih.1]
              simp [firstDifferent, hhash, hsame]
            · rw [ih.2]
              simp [Nat.add_comm]
          · simp [hsame, alone, accesses, firstDifferent, hhash]

/-- Two looks at the workers, the `BEGIN`, the reads and the two statements. -/
theorem accesses_markReplaced (hreorg : store.isInReorg = true) (hworkers : w.workers = none)
    (hjoins : Joins w.db) :
    alone system markReplaced store w = some ((store,
        (firstDifferent w.db store.pendingReorg.entries).getD store.chainBlockCount), store,
        inTxn ((w.db.insertRevertEvents
          ((firstDifferent w.db store.pendingReorg.entries).getD store.chainBlockCount)).markExtinct
          ((firstDifferent w.db store.pendingReorg.entries).getD store.chainBlockCount)) w) ∧
      accesses system markReplaced store w = reads w.db store.pendingReorg.entries + 4 := by
  have hfound : alone system (firstDifferentHeight store.pendingReorg.entries) store
          (inTxn w.db w) =
        some (firstDifferent w.db store.pendingReorg.entries, store, inTxn w.db w) ∧
      accesses system (firstDifferentHeight store.pendingReorg.entries) store (inTxn w.db w) =
        reads w.db store.pendingReorg.entries :=
    alone_firstDifferentHeight hjoins store.pendingReorg.entries
  have hlook : system.exec .pipelineIsNone false w = .done true w := by
    simp [system, exec, hworkers]
  have hbegin : system.exec .begin false w = .done () (inTxn w.db w) := rfl
  simp only [markReplaced, Prog.bind_eq, Prog.read_bind, Prog.perform_bind, alone, accesses,
    hreorg, assertThat_true, Prog.pure_bind, hlook, hbegin]
  rw [alone_bind hfound.1, accesses_bind hfound.1, hfound.2]
  exact ⟨rfl, rfl⟩

/-! ## After they are given away -/

/-- No block is pending. -/
def GivenAway (store : IndexerStore) : Prop := store.pendingReorg = .empty

/-- The rest of the transaction keeps the store so. -/
abbrev Emptied {α : Type} (db : Db) (prog : StoreM α) (store : IndexerStore) (w : World) : Prop :=
  Faulty GivenAway db (fun _ after w => GivenAway after ∧ Transacting db w) prog store w

theorem emptied_reviveOrCollect (entries : List (BlockHeight × BlockData)) :
    ∀ {store w} prevHeight, GivenAway store → Transacting db w →
      Emptied db (reviveOrCollect entries prevHeight) store w := by
  induction entries with
  | nil => exact fun _ hstore h => ⟨hstore, h⟩
  | cons entry entries ih =>
      intro store w prevHeight hstore h
      obtain ⟨height, block⟩ := entry
      simp only [reviveOrCollect, Prog.bind_eq, Prog.perform_bind]
      apply Safe.bind _ (faulty_assertThat _ (by decide) (Q := fun _ after later => after = store ∧ later = w)
        ⟨rfl, rfl⟩)
      rintro _ ready asked ⟨rfl, rfl⟩
      apply faulty_transQuery hstore h
      intro extinct
      cases extinct with
      | none => exact ih (some block.height) hstore h
      | some extinct =>
          cases extinct with
          | false => exact faulty_panic (by decide)
          | true =>
              simp only [reviveBlock, Prog.bind_eq, Prog.perform_bind, Prog.act_bind]
              apply faulty_transExecute hstore h
              intro unmarked h
              apply faulty_transExecute hstore h
              intro cleared h
              apply faulty_transExecute hstore h
              intro revived h
              exact ih (some block.height) hstore h

theorem emptied_fetchOutputs (hstore : GivenAway store) (h : Transacting db w)
    (queries : List (List HashIdOutPoint)) :
    ∀ out, Emptied db (fetchOutputs queries out) store w := by
  induction queries with
  | nil => exact fun _ => ⟨hstore, h⟩
  | cons chunk queries ih =>
      intro out
      simp only [fetchOutputs, Prog.bind_eq, Prog.perform_bind]
      apply faulty_transQuery hstore h
      exact ih

theorem emptied_processBlocks (hstore : GivenAway store) (h : Transacting db w)
    (blocks : List BlockData) (txIds : TxIdMap) :
    Emptied db (processBlocks blocks txIds) store w := by
  rw [processBlocks]
  cases UtxoSetCache.default.processLocal blocks txIds with
  | error reason => exact faulty_panic (by simp [ofWorkers])
  | ok consumed =>
      apply Safe.bind _ (emptied_fetchOutputs hstore h _ ∅)
      rintro out fetched w ⟨hfetched, h⟩
      apply Safe.bind _ (faulty_assertThat _ (by decide)
        (Q := fun _ after w => GivenAway after ∧ Transacting db w) ⟨hfetched, h⟩)
      exact fun _ _ _ hafter => hafter

theorem emptied_executeQueries (hstore : GivenAway store)
    (queries : List (Db → Except SqlError Db)) :
    ∀ {w}, Transacting db w → Emptied db (executeQueries queries) store w := by
  induction queries with
  | nil => exact fun h => ⟨hstore, h⟩
  | cons query queries ih =>
      intro w h
      simp only [executeQueries, Prog.bind_eq, Prog.perform_bind]
      apply faulty_transExecute hstore h
      exact fun w h => ih h

theorem emptied_insertBlocks (hstore : GivenAway store) (h : Transacting db w)
    (blocks : List BlockData) :
    Faulty GivenAway db (fun _ _ _ => True) (insertBlocks blocks) store w := by
  simp only [insertBlocks, Prog.bind_eq, Prog.read_bind, safe_loc]
  apply Safe.bind _ (emptied_processBlocks hstore h blocks _)
  rintro inputsUtxoMap processed w ⟨hprocessed, h⟩
  cases fmtInsertBlockdataSql blocks inputsUtxoMap (txIdMapFromBlocks blocks store.network)
      store.mode store.network with
  | error reason => exact faulty_panic (by simp [ofWorkers])
  | ok queries =>
      simp only
      apply Safe.bind _ (emptied_executeQueries hprocessed queries.toList h)
      rintro _ executed w ⟨hexecuted, h⟩
      exact faulty_commit hexecuted h fun _ => trivial

theorem emptied_replaceMarked (h : Transacting db w) (taken : IndexerStore)
    (firstDifferent : BlockHeight) :
    Faulty GivenAway db (fun _ _ _ => True) (replaceMarked taken firstDifferent) store w := by
  simp only [replaceMarked, Prog.bind_eq, Prog.modify_bind, Prog.read_bind, safe_loc]
  have hgiven : GivenAway { store with pendingReorg := .empty } := rfl
  apply Safe.bind _ (emptied_reviveOrCollect _ none hgiven h)
  rintro _ collected w ⟨hcollected, h⟩
  simp only [safe_loc]
  have hcounted : GivenAway { collected with chainBlockCount := collected.chainBlockCount + 1 } :=
    hcollected
  apply Safe.bind _ (faulty_assertThat _ (by decide)
    (Q := fun _ after w => GivenAway after ∧ Transacting db w) ⟨hcounted, h⟩)
  rintro _ ready w ⟨hready, h⟩
  rw [safe_loc]
  have hbatch : GivenAway { ready with batch := [] } := hready
  apply Safe.bind _ (emptied_insertBlocks hbatch h _)
  intro _ inserted w _
  rw [startWorkers]
  apply safe_undisturbed
  exact fun _ => trivial

/-! ## The call -/

theorem isInReorg_attempting (block : BlockData) (store : IndexerStore) :
    (attempting block store).isInReorg = true := by
  simp [attempting, IndexerStore.isInReorg, BTreeMap.isEmpty, BTreeMap.entries_insert_below]

/-- Inserting the block once more changes nothing. -/
theorem attempting_attempting (block : BlockData) (store : IndexerStore) :
    attempting block (attempting block store) = attempting block store := by
  have hpending : ((attempting block store).pendingReorg.below block.height).insert block.height
      block = (attempting block store).pendingReorg := by
    apply BTreeMap.ext
    rw [BTreeMap.entries_insert_below]
    simp [attempting, BTreeMap.entries_insert_below, List.filter_append, List.filter_filter]
  rw [attempting, hpending]

/-- The accesses of a call that completes a reorg, before the pending blocks are given away:
two looks at the workers, the `BEGIN`, the reads and two statements. -/
def accessesBefore (store : IndexerStore) (db : Db) (block : BlockData) : ℕ :=
  reads db (attempting block store).pendingReorg.entries + 5

section Call

variable {fails : Bool} {n : ℕ} {result : Halt × IndexerStore × World}

theorem haltingAt_insert (hreorg : store.isInReorg = true)
    (htop : block.height = store.chainBlockCount) (hworkers : w.workers = none)
    (h : haltingAt system fails n (Store.insert block) store w = some result) :
    ∃ m, n = m + 1 ∧
      haltingAt system fails m finishReorg (attempting block store) w = some result := by
  have hlook : ∀ fails, system.exec .pipelineIsNone fails w = .done true w := by
    intro fails
    simp [system, exec, hworkers]
  have hle : decide (block.height ≤ store.chainBlockCount) = true := decide_eq_true htop.le
  have hheight : decide (block.height = store.chainBlockCount) = true := decide_eq_true htop
  simp only [Store.insert, Prog.bind_eq, Prog.read_bind, haltingAt, hreorg, if_true,
    insertWhenInReorg, Prog.modify_bind, Prog.perform_bind, assertThat_true, Prog.pure_bind] at h
  cases n with
  | zero => simp [haltingAt, hlook] at h
  | succ m =>
      simp only [haltingAt, hlook, assertThat_true, Prog.pure_bind, hle, hheight,
        whenever_true] at h
      exact ⟨m, rfl, h⟩

/-- A statement before the pending blocks are given away fails, or one after that. -/
theorem haltingAt_cases (hreorg : store.isInReorg = true)
    (htop : block.height = store.chainBlockCount) (hworkers : w.workers = none)
    (hjoins : Joins w.db) {reason : Halt} {after : IndexerStore} {w' : World}
    (h : haltingAt system fails n (Store.insert block) store w = some (reason, after, w')) :
    (∃ error, reason = .err error) ∧ RolledBack w.db w' ∧
      ((n < accessesBefore store w.db block ∧ after = attempting block store) ∨
        (accessesBefore store w.db block ≤ n ∧ GivenAway after)) := by
  obtain ⟨m, rfl, hfinish⟩ := haltingAt_insert hreorg htop hworkers h
  have hattempting : (attempting block store).isInReorg = true := isInReorg_attempting block store
  obtain ⟨hreturns, hcount⟩ := accesses_markReplaced hattempting hworkers hjoins
  obtain ⟨γ, access, before, hexec⟩ := exec_of_haltingAt h
  rw [finishReorg_eq] at hfinish
  obtain ⟨hlt, hbefore⟩ | ⟨hle, marked, locals, begun, halone, hrest⟩ := haltingAt_bind hfinish
  · have hfaulty : Faulty (fun after => after = attempting block store) w.db
        (fun _ after later => after = attempting block store ∧ Transacting w.db later)
        markReplaced (attempting block store) w := faulty_markReplaced rfl rfl hworkers
    have hundone := hfaulty.haltingAt hbefore
    obtain ⟨herr, hsame, hback⟩ := hundone.of_ending (ending_exec hexec)
    refine ⟨herr, hback, .inl ⟨?_, hsame⟩⟩
    rw [hcount] at hlt
    exact Nat.succ_lt_succ hlt
  · rw [hreturns, Option.some.injEq] at halone
    obtain ⟨-, hworld⟩ := Prod.mk.inj (Prod.mk.inj halone).2
    have htransacting : Transacting w.db begun := by
      rw [← hworld]
      exact ⟨rfl, rfl, hworkers⟩
    have hundone := (emptied_replaceMarked htransacting _ _).haltingAt hrest
    obtain ⟨herr, hgiven, hback⟩ := hundone.of_ending (ending_exec hexec)
    refine ⟨herr, hback, .inr ⟨?_, hgiven⟩⟩
    rw [hcount] at hle
    exact Nat.succ_le_succ hle

end Call

/-! ## Runs -/

/-- The store still describes the time before the reorg: the block is among the pending ones,
the count is that of the chain in the database, and the block may be given once more. -/
structure AsBefore (before : IndexerStore) (block : BlockData) (after : IndexerStore)
    (w : World) : Prop where
  pendingReorg : after.pendingReorg = (attempting block before).pendingReorg
  batch : after.batch = before.batch
  batchTxsTotal : after.batchTxsTotal = before.batchTxsTotal
  chainBlockCount : after.chainBlockCount = before.chainBlockCount
  counted : after.chainBlockCount = w.db.chain.length
  again : attempting block after = attempting block before

theorem stopped_of_idle {S : Setting} (h : Idle S store w) (hreorg : store.isInReorg = true) :
    w.workers = none ∧ store.chainBlockCount = w.db.chain.length := by
  obtain ⟨base, -, -, -, hcount, -⟩ := (followed h).2 hreorg
  obtain ⟨line, htip⟩ | ⟨line, base, pending, hpending⟩ := h
  · rw [htip.isInReorg] at hreorg
    exact absurd hreorg (by simp)
  · exact ⟨hpending.stopped, hcount.symm⟩

theorem RolledBack.chain (h : RolledBack db w) : w.db.chain = db.chain := by
  have htables := congrArg Db.chain h.tables
  exact htables

/-- A call that completes a reorg, with a statement that fails: it returns the error and the
tables are as before; the store is if the statement comes before the pending blocks are given
away. -/
theorem failed_reorg_keeps_store_iff (S : Setting) (labels : List StoreLabel)
    (hfollows : (prefetched S).follows system labels initial) (block : BlockData) :
    let c := system.run labels initial
    c.prog = .pure () → c.locals.isInReorg = true → block.height = c.locals.chainBlockCount →
      ∀ n fails reason after w,
        haltingAt system fails n (Store.insert block) c.locals
          (enter (.insert block) c.shared) = some (reason, after, w) →
        system.run (labels ++ .call (.insert block) ::
          (List.replicate n (.step false) ++ [.step fails])) initial = ⟨after, w, .halt reason⟩ ∧
        (∃ error, reason = .err error) ∧
        { w.db with eventIdSeq := c.shared.db.eventIdSeq } = c.shared.db ∧
        (AsBefore c.locals block after w ↔ n < accessesBefore c.locals c.shared.db block) := by
  intro c hreturned hreorg htop n fails reason after w hhalting
  have hsafe : SafeConfig system (prefetched S) (Kept S) (Ends S) (Idle S) c :=
    safe_run S labels hfollows
  rw [SafeConfig, hreturned] at hsafe
  have hidle : Idle S c.locals c.shared := hsafe
  obtain ⟨hworkers, hcount⟩ := stopped_of_idle hidle hreorg
  obtain ⟨t, hsettled⟩ := hidle.kept.settled
  have hrun : system.run (labels ++ .call (.insert block) ::
      (List.replicate n (.step false) ++ [.step fails])) initial = ⟨after, w, .halt reason⟩ := by
    rw [System.run_append]
    exact run_of_haltingAt hhalting
  have hjoins : Joins c.shared.db := Settled.joins hsettled
  obtain ⟨herr, hback, hkept⟩ := haltingAt_cases (w := enter (.insert block) c.shared) hreorg htop
    hworkers hjoins hhalting
  refine ⟨hrun, herr, hback.tables, ?_⟩
  have hchain : c.locals.chainBlockCount = w.db.chain.length := by
    rw [hback.chain]
    exact hcount
  obtain ⟨hbefore, rfl⟩ | ⟨hafter, hgiven⟩ := hkept
  · exact iff_of_true ⟨rfl, rfl, rfl, rfl, hchain, attempting_attempting block c.locals⟩ hbefore
  · apply iff_of_false _ (not_lt.2 hafter)
    intro hsame
    have hpending := isInReorg_attempting block c.locals
    rw [IndexerStore.isInReorg, ← hsame.pendingReorg, hgiven] at hpending
    exact absurd hpending (by decide)

/-! ## A failure before and one after -/

/-- A reorg at height 1 is pending, two blocks being stored. -/
@[irreducible]
def pendingRival : List StoreLabel :=
  opening 5 .bitcoin ++ ((overtaken 13).take 3).flatMap fun block => calling (.insert block) 40

/-- It overtakes the stored chain. -/
def overtakingBlock : BlockData := minedBlock 2 4 3 14

theorem pendingRival_follows : (prefetched (unrestricted {block | block ∈ overtaken 13}
    (overtaken_injective 13) .bitcoin)).follows system pendingRival initial :=
  follows_of_check pendingRival initial (by decide +kernel)

theorem failed_update_keeps_store : ∃ after w,
    haltingAt system true 5 (Store.insert overtakingBlock) (system.run pendingRival initial).locals
      (enter (.insert overtakingBlock) (system.run pendingRival initial).shared) =
        some (.err .failed, after, w) ∧
      AsBefore (system.run pendingRival initial).locals overtakingBlock after w := by
  have hreturned : (system.run pendingRival initial).prog = .pure () :=
    eq_pure_of_returned (by decide +kernel)
  have hreorg : (system.run pendingRival initial).locals.isInReorg = true := by decide +kernel
  have htop : overtakingBlock.height = (system.run pendingRival initial).locals.chainBlockCount := by
    decide +kernel
  have hfails : (haltingAt system true 5 (Store.insert overtakingBlock)
      (system.run pendingRival initial).locals (enter (.insert overtakingBlock)
        (system.run pendingRival initial).shared)).map (·.1) = some (.err .failed) := by
    decide +kernel
  have hbefore : 5 < accessesBefore (system.run pendingRival initial).locals
      (system.run pendingRival initial).shared.db overtakingBlock := by
    decide +kernel
  obtain ⟨⟨reason, after, w⟩, hhalting, rfl⟩ := Option.map_eq_some_iff.1 hfails
  have hiff := (failed_reorg_keeps_store_iff _ pendingRival pendingRival_follows overtakingBlock
    hreturned hreorg htop 5 true _ after w hhalting).2.2.2
  exact ⟨after, w, hhalting, hiff.2 hbefore⟩

/-- The `COMMIT` fails: the count is that of a chain which was not stored. -/
theorem failed_commit_changes_store :
    ¬ ∀ (given : Set BlockData) (injective : Set.InjOn BlockData.hashId given) (network : Network)
      (labels : List StoreLabel),
        (prefetched (unrestricted given injective network)).follows system labels initial →
        ∀ block,
          let c := system.run labels initial
          c.prog = .pure () → c.locals.isInReorg = true → block.height = c.locals.chainBlockCount →
            ∀ n fails reason after w,
              haltingAt system fails n (Store.insert block) c.locals
                (enter (.insert block) c.shared) = some (reason, after, w) →
              AsBefore c.locals block after w := by
  intro h
  have hreturned : (system.run pendingRival initial).prog = .pure () :=
    eq_pure_of_returned (by decide +kernel)
  have hreorg : (system.run pendingRival initial).locals.isInReorg = true := by decide +kernel
  have htop : overtakingBlock.height = (system.run pendingRival initial).locals.chainBlockCount := by
    decide +kernel
  have hfails : (haltingAt system true 14 (Store.insert overtakingBlock)
      (system.run pendingRival initial).locals (enter (.insert overtakingBlock)
        (system.run pendingRival initial).shared)).map (·.2.1.chainBlockCount) = some 3 := by
    decide +kernel
  obtain ⟨⟨reason, after, w⟩, hhalting, hcount⟩ := Option.map_eq_some_iff.1 hfails
  have hsame := h {block | block ∈ overtaken 13} (overtaken_injective 13) .bitcoin pendingRival
    pendingRival_follows overtakingBlock hreturned hreorg htop 14 true reason after w hhalting
  rw [hsame.chainBlockCount, ← htop] at hcount
  exact absurd hcount (by decide)

end BitcoinIndexer.FailedReorg
