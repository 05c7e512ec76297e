import BitcoinIndexer.Core.Interleaving
import BitcoinIndexer.Core.OrderedMap
import BitcoinIndexer.Db.Worker

/-!
# The indexer store

`IndexerStore` as programs over its accesses to the database, to the set of blocks
in flight and to its workers.  Its own fields are the caller's local state; every
access is one atomic step, between which the workers run.  A statement may fail at
any time; a transaction that is not committed is rolled back.
-/

namespace BitcoinIndexer.Store

open BitcoinIndexer.Types
open BitcoinIndexer.Tables
open BitcoinIndexer.Formatter
open BitcoinIndexer.UtxoCache
open BitcoinIndexer.Worker
open BitcoinIndexer.OrderedMap
open BitcoinIndexer.Interleaving
open BitcoinIndexer.ReferenceChain

structure IndexerStore where
  batch : List BlockData
  batchTxsTotal : ℕ
  batchId : ℕ
  mode : Mode
  network : Network
  nodeChainHeadHeight : BlockHeight
  chainBlockCount : BlockHeight
  pendingReorg : BTreeMap BlockHeight BlockData

def IndexerStore.isInReorg (store : IndexerStore) : Bool :=
  !store.pendingReorg.isEmpty

inductive Panic where
  /-- `assert!(block.height <= self.chain_block_count)` -/
  | heightHole
  /-- `expect("Block at this height should already by indexed")` -/
  | blockNotIndexed
  /-- `assert!(self.batch.is_empty())` -/
  | batchNotEmpty
  /-- `assert!(self.is_in_reorg())` -/
  | notInReorg
  /-- `assert_eq!(prev_height + 1, height)` -/
  | contiguity
  /-- `panic!("Why is block id={} not extinct?", ..)` -/
  | notExtinct
  /-- `assert!(!self.batch.is_empty())` -/
  | emptyBatch
  | debugAssert
  /-- `BlockHash::from_slice(..).expect(..)` -/
  | hashParts
  /-- `"db is supposed to preserve reorg atomicity"` -/
  | countsDiffer
  /-- `assert_eq!(self.mode, Mode::FreshBulk)` -/
  | notFresh
  /-- `assert!(self.in_flight.lock().unwrap().is_empty())` -/
  | inFlightLeft
  /-- `expect("workers running")`, `expect("tx not null")` -/
  | noWorkers
  /-- `expect("Send should not fail")` -/
  | sendFailed
  /-- `expect("Worker thread panicked")`, `expect("Couldn't join on thread")` -/
  | workerDied
  | format (panic : FormatPanic)
  /-- `assert_eq!(missing_len, out.len())` -/
  | fetchedCount
  deriving DecidableEq

/-- Why no call is in progress, other than that the last one has returned `Ok`. -/
inductive Halt where
  | stopped
  | err (error : SqlError)
  | panicked (panic : Panic)
  deriving DecidableEq

/-! ## Accesses -/

inductive Thread where
  | utxoFetching
  | queryFmt
  | writer
  deriving DecidableEq

inductive Act : Type → Type 1 where
  | insertInFlight (ids : List BlockHash) : Act Unit
  /-- `in_flight.lock().unwrap().is_empty()` in `flush_workers`. -/
  | lookInFlight : Act Bool
  | assertInFlightEmpty : Act Unit
  /-- `self.pipeline.is_none()` -/
  | pipelineIsNone : Act Bool
  | send (batch : Batch) : Act Unit
  /-- `self.pipeline.take()` and `drop(self.tx.take())` -/
  | dropTx : Act Unit
  | join (thread : Thread) : Act Unit
  | spawn (mode : Mode) (network : Network) : Act Unit
  | query {β : Type} (select : Db → Except SqlError β) : Act β
  | execute (statement : Db → Except SqlError Db) : Act Unit
  | begin : Act Unit
  | transQuery {β : Type} (select : Db → Except SqlError β) : Act β
  | transExecute (statement : Db → Except SqlError Db) : Act Unit
  | commit : Act Unit

def exitOf : Thread → Workers → Option Exit
  | .utxoFetching, p => p.utxo.exit
  | .queryFmt, p => p.queryFmt.exit
  | .writer, p => p.writer.exit

/-- The transaction is dropped without commit. -/
def abort (w : World) : World :=
  match w.txn with
  | none => w
  | some transaction => { w with db := w.db.rollback transaction, txn := none }

/-- A batch passes when the UTXO fetching thread stands at its `recv`. -/
def sendTo (batch : Batch) (w : World) : Effect World Halt Unit :=
  match w.workers with
  | none => .halted (.panicked .noWorkers) w
  | some p =>
      match p.utxo with
      | .recv => .done () { w with
          workers := some { p with utxo := .received batch }
          handed := w.handed ++ [batch] }
      | .exited _ => .halted (.panicked .sendFailed) w
      | _ => .blocked

/-- Joining the writer, the last one, ends the drop of the pipeline. -/
def joinThread (thread : Thread) (w : World) : Effect World Halt Unit :=
  match w.workers with
  | none => .done () w
  | some p =>
      match exitOf thread p with
      | none => .blocked
      | some .ok => .done () { w with workers := if thread = .writer then none else some p }
      | some _ => .halted (.panicked .workerDied) w

def dropSender (w : World) : World :=
  { w with workers := w.workers.map fun p => { p with txOpen := false } }

def execStatement (statement : Db → Except SqlError Db) (w : World) :
    Effect World Halt Unit :=
  match statement w.db with
  | .error e => .halted (.err e) w
  | .ok db => .done () (w.publish db)

def execSelect {β : Type} (select : Db → Except SqlError β) (db : Db) (w : World) :
    Effect World Halt β :=
  match select db with
  | .error e => .halted (.err e) (abort w)
  | .ok value => .done value w

def execTrans (statement : Db → Except SqlError Db) (transaction : Db) (w : World) :
    Effect World Halt Unit :=
  match statement transaction with
  | .error e => .halted (.err e) (abort w)
  | .ok transaction => .done () { w with txn := some transaction }

def exec : {β : Type} → Act β → Bool → World → Effect World Halt β
  | _, .insertInFlight ids, _, w => .done () { w with inFlight := w.inFlight ∪ ids.toFinset }
  | _, .lookInFlight, _, w => .done (decide (w.inFlight = ∅)) w
  | _, .assertInFlightEmpty, _, w =>
      if w.inFlight = ∅ then .done () w else .halted (.panicked .inFlightLeft) w
  | _, .pipelineIsNone, _, w => .done (!(w.workers.any (·.txOpen))) w
  | _, .send batch, _, w => sendTo batch w
  | _, .dropTx, _, w => .done () (dropSender w)
  | _, .join thread, _, w => joinThread thread w
  | _, .spawn mode network, _, w => .done () { w with workers := some (.new mode network) }
  | _, .query _, true, w => .halted (.err .failed) w
  | _, .query select, false, w => execSelect select w.db w
  | _, .execute _, true, w => .halted (.err .failed) w
  | _, .execute statement, false, w => execStatement statement w
  | _, .begin, true, w => .halted (.err .failed) w
  | _, .begin, false, w => .done () { w with txn := some w.db }
  | _, .transQuery select, fails, w =>
      match w.txn, fails with
      | some transaction, false => execSelect select transaction w
      | _, _ => .halted (.err .failed) (abort w)
  | _, .transExecute statement, fails, w =>
      match w.txn, fails with
      | some transaction, false => execTrans statement transaction w
      | _, _ => .halted (.err .failed) (abort w)
  | _, .commit, fails, w =>
      match w.txn, fails with
      | some transaction, false => .done () { w.publish transaction with txn := none }
      | _, _ => .halted (.err .failed) (abort w)

/-! ## Programs -/

abbrev StoreM := Prog Act IndexerStore Halt

abbrev readStore : StoreM IndexerStore := Prog.read

abbrev modifyStore (change : IndexerStore → IndexerStore) : StoreM Unit := Prog.modify change

abbrev perform {β : Type} (access : Act β) : StoreM β := Prog.perform access

abbrev panic {β : Type} (reason : Panic) : StoreM β := .halt (.panicked reason)

def assertThat : Bool → Panic → StoreM Unit
  | true, _ => pure ()
  | false, reason => panic reason

def whenever : Bool → StoreM Unit → StoreM Unit
  | true, action => action
  | false, _ => pure ()

@[simp]
theorem assertThat_true (reason : Panic) : assertThat true reason = .pure () := rfl

@[simp]
theorem assertThat_false (reason : Panic) :
    assertThat false reason = .halt (.panicked reason) := rfl

@[simp]
theorem whenever_true (action : StoreM Unit) : whenever true action = action := rfl

@[simp]
theorem whenever_false (action : StoreM Unit) : whenever false action = .pure () := rfl

/-! ### Workers -/

def stopWorkers : StoreM Unit := do
  perform .dropTx
  perform (.join .utxoFetching)
  perform (.join .queryFmt)
  perform (.join .writer)
  perform .assertInFlightEmpty

abbrev areWorkersStopped : StoreM Bool := perform .pipelineIsNone

def startWorkers : StoreM Unit := do
  let store ← readStore
  perform (.spawn store.mode store.network)

def flushBatch : StoreM Unit := do
  let store ← readStore
  if store.batch.isEmpty then pure ()
  else do
    modifyStore fun store => { store with batch := [] }
    perform (.insertInFlight (store.batch.map (·.id)))
    perform (.send ⟨store.batchId, store.batch⟩)
    modifyStore fun store => { store with batchTxsTotal := 0, batchId := store.batchId + 1 }

def flushWorkersUnconditionally : StoreM Unit := do
  stopWorkers
  startWorkers

def flushWorkers : StoreM Unit := do
  if ← areWorkersStopped then pure ()
  else do
    flushBatch
    if ← perform .lookInFlight then pure ()
    else flushWorkersUnconditionally

/-! ### Modes -/

abbrev setSchemaToMode (mode : Mode) : StoreM Unit := perform (.execute (Db.setSchema mode))

/-- `UPDATE indexer_state SET bulk_mode = $1`. -/
def updateBulkMode (mode : Mode) (db : Db) : Except SqlError Db :=
  .ok { db with bulkMode := db.bulkMode.map fun _ => mode.isBulk }

def setModeUncodintionally (mode : Mode) : StoreM Unit := do
  modifyStore fun store => { store with mode := mode }
  flushWorkers
  setSchemaToMode mode
  perform (.execute (updateBulkMode mode))

def setMode (mode : Mode) : StoreM Unit := do
  let store ← readStore
  if store.mode = mode then pure () else setModeUncodintionally mode

def selfTest : StoreM Unit := do
  let store ← readStore
  assertThat (store.mode = .freshBulk) .notFresh
  setModeUncodintionally .freshBulk
  setModeUncodintionally .bulk
  setModeUncodintionally .normal
  setModeUncodintionally .bulk
  setModeUncodintionally .freshBulk

/-! ### Reading -/

def joinHash : Option (HashId × List UInt8) → StoreM (Option BlockHash)
  | none => pure none
  | some parts =>
      match hashIdAndRestToHash parts.1 parts.2 with
      | none => panic .hashParts
      | some hash => pure (some hash)

/-- `query_opt`: at most one row. -/
def queryOpt {ρ : Type} : List ρ → Except SqlError (Option ρ)
  | [] => .ok none
  | [row] => .ok (some row)
  | _ => .error .tooManyRows

def readDbBlockHashByHeight (height : BlockHeight) : StoreM (Option BlockHash) := do
  joinHash (← perform (.query fun db => queryOpt (db.blocksAtHeight height)))

def readDbBlockHashByHeightTrans (height : BlockHeight) : StoreM (Option BlockHash) := do
  joinHash (← perform (.transQuery fun db => .ok (db.blocksAtHeight height).head?))

/-- What the state row and the block count say. -/
def indexerStateMode (db : Db) : Option Mode :=
  db.bulkMode.map fun bulk =>
    if bulk then (if db.block.length = 0 then .freshBulk else .bulk) else .normal

/-- `INSERT INTO indexer_state (bulk_mode) VALUES (true)`. -/
def insertBulkMode (db : Db) : Except SqlError Db :=
  .ok { db with bulkMode := some true }

def readIndexerState : StoreM Mode := do
  match ← perform (.query fun db => .ok (indexerStateMode db)) with
  | some mode => pure mode
  | none => do
      perform (.execute insertBulkMode)
      pure .freshBulk

/-! ### Opening the store -/

def IndexerStore.opened (mode : Mode) (network : Network)
    (nodeChainHeadHeight chainBlockCount : BlockHeight) : IndexerStore where
  batch := []
  batchTxsTotal := 0
  batchId := 0
  mode := mode
  network := network
  nodeChainHeadHeight := nodeChainHeadHeight
  chainBlockCount := chainBlockCount
  pendingReorg := .empty

/-- `IndexerStore::new`; creating the tables where they exist changes nothing. -/
def new (nodeChainHeadHeight : BlockHeight) (network : Network) : StoreM Unit := do
  perform (.execute .ok)
  let mode ← readIndexerState
  let chainBlockCount ← perform (.query fun db => .ok db.readDbChainBlockCount)
  let chainCurrentBlockCount ← perform (.query fun db => .ok db.readDbChainCurrentBlockCount)
  assertThat (chainBlockCount = chainCurrentBlockCount) .countsDiffer
  modifyStore fun _ => .opened mode network nodeChainHeadHeight chainBlockCount
  whenever (mode = .freshBulk) selfTest
  let store ← readStore
  setSchemaToMode store.mode
  startWorkers

/-! ### Inserting at the tip -/

def IndexerStore.push (block : BlockData) (store : IndexerStore) : IndexerStore :=
  { store with
    batchTxsTotal := store.batchTxsTotal + block.data.txdata.length
    batch := store.batch ++ [block]
    chainBlockCount := store.chainBlockCount + 1 }

/-- A block the chain already has a block for: either the same one or a reorg. -/
def insertBelowTip (block : BlockData) : StoreM Unit := do
  flushBatch
  stopWorkers
  match ← readDbBlockHashByHeight block.height with
  | none => panic .blockNotIndexed
  | some dbHash =>
      if dbHash = block.id then startWorkers
      else do
        let store ← readStore
        assertThat store.batch.isEmpty .batchNotEmpty
        modifyStore fun store =>
          { store with pendingReorg := store.pendingReorg.insert block.height block }
        let store ← readStore
        assertThat store.isInReorg .notInReorg

def insertExtending (block : BlockData) : StoreM Unit := do
  modifyStore (·.push block)
  let store ← readStore
  whenever (!store.mode.isBulk || decide (store.batchTxsTotal > 100000)) flushBatch
  whenever (store.nodeChainHeadHeight = block.height) (setMode .normal)

def insertWhenAtTip (block : BlockData) : StoreM Unit := do
  let store ← readStore
  assertThat (!store.isInReorg) .debugAssert
  let stopped ← areWorkersStopped
  assertThat (!stopped) .debugAssert
  assertThat (decide (block.height ≤ store.chainBlockCount)) .heightHole
  if block.height ≠ store.chainBlockCount then insertBelowTip block else insertExtending block

/-! ### Finishing a reorg -/

def firstDifferentHeight : List (BlockHeight × BlockData) → StoreM (Option BlockHeight)
  | [] => pure none
  | (height, block) :: rest => do
      match ← readDbBlockHashByHeightTrans height with
      | none => firstDifferentHeight rest
      | some existingHash =>
          if existingHash ≠ block.id then pure (some block.height)
          else firstDifferentHeight rest

/-- `INSERT INTO event (block_hash_id) VALUES ($1)`. -/
def insertEvent (hashId : HashId) (db : Db) : Except SqlError Db :=
  .ok (db.insertEvents false [hashId])

def reviveBlock (block : BlockData) : StoreM Unit := do
  perform (.transExecute fun db => .ok (db.unmarkExtinct block.hashId))
  perform (.transExecute fun db => .ok (db.clearCurrentHeight block.height))
  perform (.transExecute (insertEvent block.hashId))

def IndexerStore.collect (block : BlockData) (store : IndexerStore) : IndexerStore :=
  { store with
    batchTxsTotal := store.batchTxsTotal + block.data.txdata.length
    batch := store.batch ++ [block] }

/-- The loop over the reorg blocks; `prevHeight` is the height of the one before. -/
def reviveOrCollect :
    List (BlockHeight × BlockData) → Option BlockHeight → StoreM Unit
  | [], _ => pure ()
  | (height, block) :: rest, prevHeight => do
      assertThat (prevHeight.all fun prev => prev + 1 = height) .contiguity
      match ← perform (.transQuery fun db =>
          .ok (db.readDbBlockExtinctByHashId block.hashId)) with
      | some false => panic .notExtinct
      | some true => do
          reviveBlock block
          reviveOrCollect rest (some block.height)
      | none => do
          modifyStore (·.collect block)
          reviveOrCollect rest (some block.height)

/-- `fetch_outputs` in the transaction. -/
def fetchOutputs : List (List HashIdOutPoint) → UtxoDetailsMap → StoreM UtxoDetailsMap
  | [], out => pure out
  | chunk :: queries, out => do
      let out ← perform (.transQuery fun db => .ok (fetchChunk chunk db out))
      fetchOutputs queries out

/-- `process_blocks` with an empty cache. -/
def processBlocks (blocks : List BlockData) (txIds : TxIdMap) : StoreM UtxoDetailsMap :=
  match UtxoSetCache.default.processLocal blocks txIds with
  | .error reason => panic (.format reason)
  | .ok consumed => do
      let out ← fetchOutputs (fmtFetchOutputsSql consumed.missing) ∅
      assertThat (fetchedAll consumed.missing out) .fetchedCount
      pure (insertFetched consumed.found out)

def executeQueries : List (Db → Except SqlError Db) → StoreM Unit
  | [] => pure ()
  | statement :: statements => do
      perform (.transExecute statement)
      executeQueries statements

def insertBlocks (blocks : List BlockData) : StoreM Unit := do
  let store ← readStore
  let txIds := txIdMapFromBlocks blocks store.network
  let inputsUtxoMap ← processBlocks blocks txIds
  match fmtInsertBlockdataSql blocks inputsUtxoMap txIds store.mode store.network with
  | .error reason => panic (.format reason)
  | .ok queries => do
      executeQueries queries.toList
      perform .commit

def finishReorg : StoreM Unit := do
  let store ← readStore
  assertThat store.isInReorg .debugAssert
  let stopped ← areWorkersStopped
  assertThat stopped .debugAssert
  perform .begin
  let firstDifferent ← firstDifferentHeight store.pendingReorg.entries
  let firstDifferent := firstDifferent.getD store.chainBlockCount
  perform (.transExecute fun db => .ok (db.insertRevertEvents firstDifferent))
  perform (.transExecute fun db => .ok (db.markExtinct firstDifferent))
  modifyStore fun store => { store with pendingReorg := .empty }
  reviveOrCollect (store.pendingReorg.splitOff firstDifferent).entries none
  modifyStore fun store => { store with chainBlockCount := store.chainBlockCount + 1 }
  let store ← readStore
  assertThat (!store.batch.isEmpty) .emptyBatch
  modifyStore fun store => { store with batch := [] }
  insertBlocks store.batch
  startWorkers

def insertWhenInReorg (block : BlockData) : StoreM Unit := do
  let store ← readStore
  assertThat store.isInReorg .debugAssert
  let stopped ← areWorkersStopped
  assertThat stopped .debugAssert
  assertThat (decide (block.height ≤ store.chainBlockCount)) .heightHole
  modifyStore fun store =>
    { store with pendingReorg := (store.pendingReorg.below block.height).insert block.height block }
  whenever (block.height = store.chainBlockCount) finishReorg

/-! ### The interface -/

def insert (block : BlockData) : StoreM Unit := do
  let store ← readStore
  if store.isInReorg then insertWhenInReorg block else insertWhenAtTip block

def IndexerStore.getHeadHeight (store : IndexerStore) : Option BlockHeight :=
  if store.chainBlockCount = 0 then none else some (store.chainBlockCount - 1)

def getHashByHeight (height : BlockHeight) : StoreM (Option BlockHash) := do
  let store ← readStore
  if store.chainBlockCount ≤ height then pure none
  else
    match store.pendingReorg.get height with
    | some block => pure (some block.id)
    | none => do
        flushWorkers
        readDbBlockHashByHeight height

/-! ## Runs of the store -/

/-- A new process (whatever the old one was doing), or a call of the running one. -/
inductive Call where
  | start (nodeChainHeadHeight : BlockHeight) (network : Network) (resume : ℕ)
  | insert (block : BlockData)
  | getHashByHeight (height : BlockHeight)

/-- The caller of a new process knows the first `resume` blocks of the chain. -/
def restart (resume : ℕ) (w : World) : World :=
  { abort w with
    workers := none
    inFlight := ∅
    handed := []
    committed := []
    failed := []
    fed := w.db.chain.take resume }

def enter : Call → World → World
  | .start _ _ resume, w => restart resume w
  | .insert block, w => { w with fed := feed w.fed block }
  | .getHashByHeight _, w => w

def body : Call → StoreM Unit
  | .start nodeChainHeadHeight network _ => new nodeChainHeadHeight network
  | .insert block => insert block
  | .getHashByHeight height => do
      let _ ← getHashByHeight height
      pure ()

/-- The accesses and the worker threads, with the calls of a driver. -/
def systemOf {κ : Type} (enter : κ → World → World) (body : κ → StoreM Unit) :
    System Act IndexerStore Halt World WorkerEvent κ where
  exec := exec
  interfere := World.step
  enter := enter
  body := body

@[simp]
theorem systemOf_exec {κ β : Type} (enter : κ → World → World) (body : κ → StoreM Unit)
    (access : Act β) (fails : Bool) (w : World) :
    (systemOf enter body).exec access fails w = exec access fails w := rfl

def system : System Act IndexerStore Halt World WorkerEvent Call := systemOf enter body

def World.initial : World := ⟨.empty, none, ∅, none, [], [], [], [], 0⟩

/-- No process yet, an empty database. -/
def initial : Config Act IndexerStore Halt World :=
  ⟨.opened .freshBulk .bitcoin 0 0, World.initial, .halt .stopped⟩

end BitcoinIndexer.Store
