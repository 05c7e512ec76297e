import Mathlib.Data.Finset.Basic
import Mathlib.Data.Finset.SDiff
import BitcoinIndexer.Db.UtxoSetCache

/-!
# The insert pipeline

Three threads hand batches to each other over rendezvous channels: one fetches the
spent outputs, one formats the queries, one writes.  A thread's state says where in
its loop it stands and what it holds; a message passes in the receiver's step, when
the sender stands at its `send`.  Any thread may fail at any moment.

The world also holds the database, the caller's open transaction and the set of
blocks in flight.  Its last fields are history: no step reads them.
-/

namespace BitcoinIndexer.Worker

open BitcoinIndexer.Types
open BitcoinIndexer.Tables
open BitcoinIndexer.Formatter
open BitcoinIndexer.UtxoCache

structure Batch where
  batchId : ℕ
  blocks : List BlockData
  deriving DecidableEq

def Batch.ids (batch : Batch) : List BlockHash :=
  batch.blocks.map (·.id)

inductive WorkerPanic where
  | format (panic : FormatPanic)
  /-- `assert_eq!(missing_len, out.len())` -/
  | fetchedCount
  /-- `expect("at least one block")` -/
  | noBlock
  /-- `expect("Send not fail")` -/
  | sendFailed
  /-- `assert!(!any_missing)` -/
  | anyMissing
  deriving DecidableEq

inductive Exit where
  | ok
  | err (error : SqlError)
  | panicked (panic : WorkerPanic)
  deriving DecidableEq

/-- `(batch_id, blocks, inputs_utxo_map, tx_ids)` -/
structure UtxoMsg where
  batch : Batch
  inputsUtxoMap : UtxoDetailsMap
  txIds : TxIdMap

/-- `(batch_id, queries, block_ids, max_block_height, tx_len)`; the blocks themselves
are carried along for the history. -/
structure WriterMsg where
  batch : Batch
  queries : Queries
  blockIds : Finset BlockHash
  maxBlockHeight : BlockHeight
  txLen : ℕ

/-- `process_blocks` between two queries. -/
structure Fetching where
  txIds : TxIdMap
  found : UtxoDetailsMap
  missing : List HashIdOutPoint
  queries : List (List HashIdOutPoint)
  out : UtxoDetailsMap

inductive UtxoThread where
  | recv
  | received (batch : Batch)
  | fetching (batch : Batch) (fetch : Fetching)
  | send (msg : UtxoMsg)
  | exited (exit : Exit)

inductive QueryFmtThread where
  | recv
  | received (msg : UtxoMsg)
  | send (msg : WriterMsg)
  | exited (exit : Exit)

inductive WriterThread where
  | recv
  | received (msg : WriterMsg)
  /-- Committed, the block ids not yet removed from `in_flight`. -/
  | committed (msg : WriterMsg)
  | exited (exit : Exit)

def UtxoThread.held : UtxoThread → List Batch
  | .recv => []
  | .received batch => [batch]
  | .fetching batch _ => [batch]
  | .send msg => [msg.batch]
  | .exited _ => []

def QueryFmtThread.held : QueryFmtThread → List Batch
  | .recv => []
  | .received msg => [msg.batch]
  | .send msg => [msg.batch]
  | .exited _ => []

/-- The batch the writer has not committed yet. -/
def WriterThread.held : WriterThread → List Batch
  | .recv => []
  | .received msg => [msg.batch]
  | .committed _ => []
  | .exited _ => []

/-- The batch the writer has committed and not yet acknowledged. -/
def WriterThread.acking : WriterThread → List Batch
  | .recv => []
  | .received _ => []
  | .committed msg => [msg.batch]
  | .exited _ => []

def UtxoThread.exit : UtxoThread → Option Exit
  | .recv => none
  | .received _ => none
  | .fetching _ _ => none
  | .send _ => none
  | .exited exit => some exit

def QueryFmtThread.exit : QueryFmtThread → Option Exit
  | .recv => none
  | .received _ => none
  | .send _ => none
  | .exited exit => some exit

def WriterThread.exit : WriterThread → Option Exit
  | .recv => none
  | .received _ => none
  | .committed _ => none
  | .exited exit => some exit

@[simp]
theorem UtxoThread.held_eqs :
    UtxoThread.recv.held = [] ∧ (∀ batch, (UtxoThread.received batch).held = [batch]) ∧
      (∀ batch fetch, (UtxoThread.fetching batch fetch).held = [batch]) ∧
      (∀ msg, (UtxoThread.send msg).held = [msg.batch]) ∧
      (∀ exit, (UtxoThread.exited exit).held = []) :=
  ⟨rfl, fun _ => rfl, fun _ _ => rfl, fun _ => rfl, fun _ => rfl⟩

@[simp]
theorem QueryFmtThread.held_eqs :
    QueryFmtThread.recv.held = [] ∧ (∀ msg, (QueryFmtThread.received msg).held = [msg.batch]) ∧
      (∀ msg, (QueryFmtThread.send msg).held = [msg.batch]) ∧
      (∀ exit, (QueryFmtThread.exited exit).held = []) :=
  ⟨rfl, fun _ => rfl, fun _ => rfl, fun _ => rfl⟩

@[simp]
theorem WriterThread.held_eqs :
    WriterThread.recv.held = [] ∧ (∀ msg, (WriterThread.received msg).held = [msg.batch]) ∧
      (∀ msg, (WriterThread.committed msg).held = []) ∧
      (∀ exit, (WriterThread.exited exit).held = []) :=
  ⟨rfl, fun _ => rfl, fun _ => rfl, fun _ => rfl⟩

@[simp]
theorem WriterThread.acking_eqs :
    WriterThread.recv.acking = [] ∧ (∀ msg, (WriterThread.received msg).acking = []) ∧
      (∀ msg, (WriterThread.committed msg).acking = [msg.batch]) ∧
      (∀ exit, (WriterThread.exited exit).acking = []) :=
  ⟨rfl, fun _ => rfl, fun _ => rfl, fun _ => rfl⟩

@[simp]
theorem UtxoThread.exit_eqs :
    UtxoThread.recv.exit = none ∧ (∀ batch, (UtxoThread.received batch).exit = none) ∧
      (∀ batch fetch, (UtxoThread.fetching batch fetch).exit = none) ∧
      (∀ msg, (UtxoThread.send msg).exit = none) ∧
      (∀ exit, (UtxoThread.exited exit).exit = some exit) :=
  ⟨rfl, fun _ => rfl, fun _ _ => rfl, fun _ => rfl, fun _ => rfl⟩

@[simp]
theorem QueryFmtThread.exit_eqs :
    QueryFmtThread.recv.exit = none ∧ (∀ msg, (QueryFmtThread.received msg).exit = none) ∧
      (∀ msg, (QueryFmtThread.send msg).exit = none) ∧
      (∀ exit, (QueryFmtThread.exited exit).exit = some exit) :=
  ⟨rfl, fun _ => rfl, fun _ => rfl, fun _ => rfl⟩

@[simp]
theorem WriterThread.exit_eqs :
    WriterThread.recv.exit = none ∧ (∀ msg, (WriterThread.received msg).exit = none) ∧
      (∀ msg, (WriterThread.committed msg).exit = none) ∧
      (∀ exit, (WriterThread.exited exit).exit = some exit) :=
  ⟨rfl, fun _ => rfl, fun _ => rfl, fun _ => rfl⟩

/-- `AsyncBlockInsertWorker`: what its threads have captured, whether the caller's
`Sender` is still there, and the threads. -/
structure Workers where
  mode : Mode
  network : Network
  txOpen : Bool
  utxoSetCache : UtxoSetCache
  utxo : UtxoThread
  queryFmt : QueryFmtThread
  writer : WriterThread

def Workers.new (mode : Mode) (network : Network) : Workers :=
  ⟨mode, network, true, .default, .recv, .recv, .recv⟩

structure World where
  db : Db
  txn : Option Db
  inFlight : Finset BlockHash
  workers : Option Workers
  /-- The batches sent to the workers of this process. -/
  handed : List Batch
  /-- The batches its writers committed. -/
  committed : List Batch
  /-- The batches held by a thread when it failed. -/
  failed : List Batch
  /-- The reference chain: what the caller has been given, kept by truncation. -/
  fed : List BlockHash
  /-- The largest block count a committed state had. -/
  highest : ℕ

/-- Make a new state of the tables visible. -/
def World.publish (db : Db) (w : World) : World :=
  { w with db := db, highest := max w.highest db.readDbChainCurrentBlockCount }

/-! ## The UTXO fetching thread -/

namespace Workers

variable (p : Workers)

def exitUtxo (exit : Exit) : Workers := { p with utxo := .exited exit }

/-- `utxo_set_cache.process_blocks` up to its first query. -/
def startProcessBlocks (batch : Batch) : Workers :=
  let txIds := txIdMapFromBlocks batch.blocks p.network
  match p.utxoSetCache.processLocal batch.blocks txIds with
  | .error panic => p.exitUtxo (.panicked (.format panic))
  | .ok consumed =>
      { p with
        utxoSetCache := consumed.cache
        utxo := .fetching batch
          ⟨txIds, consumed.found, consumed.missing, fmtFetchOutputsSql consumed.missing, ∅⟩ }

def fetchStep (batch : Batch) (fetch : Fetching) (db : Db) : Workers :=
  match fetch.queries with
  | chunk :: queries =>
      { p with
        utxo := .fetching batch
          { fetch with queries := queries, out := fetchChunk chunk db fetch.out } }
  | [] =>
      if fetchedAll fetch.missing fetch.out then
        { p with utxo := .send ⟨batch, insertFetched fetch.found fetch.out, fetch.txIds⟩ }
      else p.exitUtxo (.panicked .fetchedCount)

def utxoStep (fails : Bool) (db : Db) : Workers :=
  match p.utxo, fails with
  | .exited _, _ => p
  | _, true => p.exitUtxo (.err .failed)
  | .recv, false => if p.txOpen then p else p.exitUtxo .ok
  | .received batch, false => p.startProcessBlocks batch
  | .fetching batch fetch, false => p.fetchStep batch fetch db
  | .send _, false =>
      if p.queryFmt.exit.isSome then p.exitUtxo (.panicked .sendFailed) else p

/-! ## The query formatting thread -/

def exitQueryFmt (exit : Exit) : Workers := { p with queryFmt := .exited exit }

def formatStep (msg : UtxoMsg) : Workers :=
  match fmtInsertBlockdataSql msg.batch.blocks msg.inputsUtxoMap msg.txIds p.mode p.network with
  | .error panic => p.exitQueryFmt (.panicked (.format panic))
  | .ok queries =>
      match msg.batch.blocks.getLast? with
      | none => p.exitQueryFmt (.panicked .noBlock)
      | some block =>
          { p with
            queryFmt := .send
              { batch := msg.batch
                queries := queries
                blockIds := msg.batch.ids.toFinset
                maxBlockHeight := block.height
                txLen := (msg.batch.blocks.map (·.data.txdata.length)).sum } }

def queryFmtStep (fails : Bool) : Workers :=
  match p.queryFmt, fails with
  | .exited _, _ => p
  | _, true => p.exitQueryFmt (.err .failed)
  | .recv, false =>
      match p.utxo with
      | .send msg => { p with utxo := .recv, queryFmt := .received msg }
      | .exited _ => p.exitQueryFmt .ok
      | _ => p
  | .received msg, false => p.formatStep msg
  | .send _, false =>
      if p.writer.exit.isSome then p.exitQueryFmt (.panicked .sendFailed) else p

end Workers

/-! ## The writer thread -/

/-- The transaction of one batch: all of its queries and the commit, or a rollback
after the first `failAt` queries or the first one that is refused. -/
def commitAtomicBulkInsertSql (failAt : Option ℕ) (queries : Queries) (db : Db) :
    Db × Option SqlError :=
  match failAt with
  | none =>
      match executeAll queries.toList db with
      | (transaction, none) => (transaction, none)
      | (transaction, some e) => (db.rollback transaction, some e)
  | some count =>
      (db.rollback (executeAll (queries.toList.take count) db).1,
        some ((executeAll (queries.toList.take count) db).2.getD .failed))

namespace World

def setWriter (writer : WriterThread) (p : Workers) (w : World) : World :=
  { w with workers := some { p with writer := writer } }

def commitStep (failAt : Option ℕ) (msg : WriterMsg) (p : Workers) (w : World) : World :=
  match commitAtomicBulkInsertSql failAt msg.queries w.db with
  | (db, none) =>
      { (w.publish db).setWriter (.committed msg) p with
        committed := w.committed ++ [msg.batch] }
  | (db, some e) =>
      { (w.publish db).setWriter (.exited (.err e)) p with failed := w.failed ++ [msg.batch] }

/-- Remove the block ids of a committed batch from `in_flight`. -/
def ackStep (msg : WriterMsg) (p : Workers) (w : World) : World :=
  if msg.blockIds ⊆ w.inFlight then
    { w.setWriter .recv p with inFlight := w.inFlight \ msg.blockIds }
  else
    { w.setWriter (.exited (.panicked .anyMissing)) p with
      inFlight := w.inFlight \ msg.blockIds
      failed := w.failed ++ [msg.batch] }

def writerStep (failAt : Option ℕ) (p : Workers) (w : World) : World :=
  match p.writer with
  | .exited _ => w
  | .received msg => w.commitStep failAt msg p
  | .recv =>
      if failAt.isSome then w.setWriter (.exited (.err .failed)) p
      else
        match p.queryFmt with
        | .send msg => { w with workers := some { p with queryFmt := .recv, writer := .received msg } }
        | .exited _ => w.setWriter (.exited .ok) p
        | _ => w
  | .committed msg =>
      if failAt.isSome then
        { w.setWriter (.exited (.err .failed)) p with failed := w.failed ++ [msg.batch] }
      else w.ackStep msg p

end World

/-! ## The threads together -/

/-- A step of one thread, with the failure that may happen in it. -/
inductive WorkerEvent where
  | utxo (fails : Bool)
  | queryFmt (fails : Bool)
  | writer (failAt : Option ℕ)
  deriving DecidableEq

/-- What a thread held is lost when it exits. -/
def lost (exit : Option Exit) (held : List Batch) : List Batch :=
  if exit.isSome then held else []

def World.step (event : WorkerEvent) (w : World) : World :=
  match w.workers with
  | none => w
  | some p =>
      match event with
      | .utxo fails =>
          { w with
            workers := some (p.utxoStep fails w.db)
            failed := w.failed ++ lost (p.utxoStep fails w.db).utxo.exit p.utxo.held }
      | .queryFmt fails =>
          { w with
            workers := some (p.queryFmtStep fails)
            failed := w.failed ++ lost (p.queryFmtStep fails).queryFmt.exit p.queryFmt.held }
      | .writer failAt => w.writerStep failAt p

end BitcoinIndexer.Worker
