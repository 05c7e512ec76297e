import BitcoinIndexer.Db.Tables
import Mathlib.Data.List.AList

/-!
# Formatting block data

The writers that turn blocks into multi-value `INSERT` statements, one for each
table.  A value is the row its tuple denotes, a query string the list of its
statements.  The panics of the code (a txid or a spent output that is not in its
map, outputs worth more than the inputs) are the errors of `Except`.
-/

namespace BitcoinIndexer.Formatter

open BitcoinIndexer.Types
open BitcoinIndexer.Tables

def sqlInsertValuesSize : ℕ := 30000

inductive FormatPanic where
  /-- `self.tx_ids[&(block.height, tx_i)]` -/
  | txIdMissing
  /-- `self.inputs_utxo_map[&p]` -/
  | outputMissing
  /-- `assert!(output_value_sum <= input_value_sum)` -/
  | negativeFee
  deriving DecidableEq

/-- Multiple-value `INSERT` formatter: the finished statements and the values of the
open one. -/
structure MultiValueSqlFormatter (ρ : Type) where
  out : List (Insert ρ)
  onConflict : OnConflict
  queryValues : List ρ

namespace MultiValueSqlFormatter

variable {ρ : Type}

def newOnConflictDoNothing : MultiValueSqlFormatter ρ := ⟨[], .doNothing, []⟩

def newOnConflictDoNothingAuto (mode : Mode) : MultiValueSqlFormatter ρ :=
  ⟨[], if mode.isBulk then .raise else .doNothing, []⟩

def newNoConflictCheck : MultiValueSqlFormatter ρ := ⟨[], .raise, []⟩

def newTxOnConflictUpdateCurrentHeight : MultiValueSqlFormatter ρ :=
  ⟨[], .updateCurrentHeight, []⟩

def terminateQuery (f : MultiValueSqlFormatter ρ) : MultiValueSqlFormatter ρ :=
  { f with out := f.out ++ [⟨f.queryValues, f.onConflict⟩], queryValues := [] }

def maybeTerminateQuery (f : MultiValueSqlFormatter ρ) : MultiValueSqlFormatter ρ :=
  if f.queryValues.length > sqlInsertValuesSize then f.terminateQuery else f

def fmtWith (value : ρ) (f : MultiValueSqlFormatter ρ) : MultiValueSqlFormatter ρ :=
  { f.maybeTerminateQuery with queryValues := f.maybeTerminateQuery.queryValues ++ [value] }

/-- `Drop`: close the open statement; what is left is the query string. -/
def drop (f : MultiValueSqlFormatter ρ) : List (Insert ρ) :=
  if f.queryValues.length > 0 then f.terminateQuery.out else f.out

end MultiValueSqlFormatter

/-! ## Spent outputs and transaction ids -/

/-- `OutPoint` but with the hash trimmed to be just `HashId`. -/
structure HashIdOutPoint where
  txHashId : HashId
  vout : ℕ
  deriving DecidableEq

def HashIdOutPoint.fromTxHashAndIdx (txHash : Sha256dHash) (idx : ℕ) : HashIdOutPoint :=
  ⟨hashToHashId txHash, idx⟩

def HashIdOutPoint.ofOutPoint (point : OutPoint) : HashIdOutPoint :=
  ⟨hashToHashId point.txid, point.vout⟩

structure UtxoSetEntry where
  value : ℕ
  deriving DecidableEq

abbrev UtxoDetailsMap := AList fun _ : HashIdOutPoint => UtxoSetEntry

/-- Block height and position in the block to transaction id. -/
abbrev TxIdMap := AList fun _ : BlockHeight × ℕ => Txid

def txIdMapFromBlocks (blocks : List BlockData) (network : Network) : TxIdMap :=
  (blocks.flatMap fun block =>
    block.data.txdata.zipIdx.map fun tx =>
      ((block.height, tx.2), calculateTxIdWithWorkarounds block tx.1 network)).foldl
    (fun ids entry => ids.insert entry.1 entry.2) ∅

/-! ## The rows of a block -/

def OutputFormatter.row (network : Network) (txId : Sha256dHash) (output : TxOut) (vout : ℕ) :
    OutputRow where
  value := output.value
  txIdx := vout
  txHashId := hashToHashId txId
  address := addressFromScript output.scriptPubkey network

def InputFormatter.row (txId : Sha256dHash) (input : TxIn) : InputRow where
  outputTxIdx := input.previousOutput.vout
  hasWitness := !input.witness.isEmpty
  outputTxHashId := hashToHashId input.previousOutput.txid
  txHashId := hashToHashId txId

def BlockTxFormatter.row (block : BlockData) (txId : Sha256dHash) : BlockTxRow where
  blockHashId := hashToHashId block.id
  txHashId := hashToHashId txId

def TxFormatter.row (blockHeight : Option BlockHeight) (tx : Transaction) (txId : Sha256dHash)
    (fee : ℕ) : TxRow where
  mempoolTs := none
  fee := fee
  locktime := tx.lockTime
  currentHeight := blockHeight
  weight := tx.weight
  coinbase := tx.isCoinBase
  hashId := hashToHashId txId
  hashRest := hashRest txId

def BlockFormatter.row (block : BlockData) : BlockRow where
  time := block.data.header.time
  height := block.height
  extinct := false
  hashId := hashToHashId block.id
  hashRest := hashRest block.id
  prevHashId := hashToHashId block.data.header.prevBlockhash
  merkleRoot := block.data.header.merkleRoot.inner

/-! ## The formatters -/

structure TxFormatter where
  tx : MultiValueSqlFormatter TxRow
  outputFmt : MultiValueSqlFormatter OutputRow
  inputFmt : MultiValueSqlFormatter InputRow
  network : Network
  inputsUtxoMap : UtxoDetailsMap

namespace TxFormatter

def newForInBlock (mode : Mode) (network : Network) (inputsUtxoMap : UtxoDetailsMap) :
    TxFormatter where
  tx := if mode.isBulk then .newNoConflictCheck else .newTxOnConflictUpdateCurrentHeight
  outputFmt := .newOnConflictDoNothingAuto mode
  inputFmt := .newOnConflictDoNothingAuto mode
  network := network
  inputsUtxoMap := inputsUtxoMap

/-- Mempool inserts are for the normal mode only. -/
def newForInMempool (network : Network) (inputsUtxoMap : UtxoDetailsMap) : TxFormatter where
  tx := .newOnConflictDoNothing
  outputFmt := .newOnConflictDoNothingAuto .normal
  inputFmt := .newOnConflictDoNothingAuto .normal
  network := network
  inputsUtxoMap := inputsUtxoMap

def inputValueSum (inputsUtxoMap : UtxoDetailsMap) : List TxIn → Except FormatPanic ℕ
  | [] => .ok 0
  | input :: inputs =>
      match inputsUtxoMap.lookup (.ofOutPoint input.previousOutput) with
      | none => .error .outputMissing
      | some entry => (inputValueSum inputsUtxoMap inputs).map (entry.value + ·)

def outputValueSum (outputs : List TxOut) : ℕ :=
  (outputs.map (·.value)).sum

def fee (inputsUtxoMap : UtxoDetailsMap) (tx : Transaction) : Except FormatPanic ℕ :=
  if tx.isCoinBase then .ok 0
  else
    match inputValueSum inputsUtxoMap tx.input with
    | .error panic => .error panic
    | .ok inputs =>
        if outputValueSum tx.output ≤ inputs then .ok (inputs - outputValueSum tx.output)
        else .error .negativeFee

def fmt (blockHeight : Option BlockHeight) (tx : Transaction) (txId : Sha256dHash)
    (f : TxFormatter) : Except FormatPanic TxFormatter :=
  match fee f.inputsUtxoMap tx with
  | .error panic => .error panic
  | .ok fee => .ok
      { f with
        tx := f.tx.fmtWith (row blockHeight tx txId fee)
        outputFmt := tx.output.zipIdx.foldl
          (fun outputs output =>
            outputs.fmtWith (OutputFormatter.row f.network txId output.1 output.2)) f.outputFmt
        inputFmt :=
          if tx.isCoinBase then f.inputFmt
          else tx.input.foldl
            (fun inputs input => inputs.fmtWith (InputFormatter.row txId input)) f.inputFmt }

end TxFormatter

structure BlockFormatter where
  event : MultiValueSqlFormatter HashId
  block : MultiValueSqlFormatter BlockRow
  txFmt : TxFormatter
  blockTxFmt : MultiValueSqlFormatter BlockTxRow
  txIds : TxIdMap

namespace BlockFormatter

def new (mode : Mode) (network : Network) (inputsUtxoMap : UtxoDetailsMap) (txIds : TxIdMap) :
    BlockFormatter where
  event := .newOnConflictDoNothingAuto mode
  block := .newOnConflictDoNothingAuto mode
  txFmt := .newForInBlock mode network inputsUtxoMap
  blockTxFmt := .newOnConflictDoNothingAuto mode
  txIds := txIds

def fmtOne (block : BlockData) (f : BlockFormatter) : BlockFormatter :=
  { f with
    event := f.event.fmtWith (hashToHashId block.id)
    block := f.block.fmtWith (row block) }

/-- The loop over the transactions of a block, each with its position. -/
def fmtTxs (block : BlockData) :
    List (Transaction × ℕ) → BlockFormatter → Except FormatPanic BlockFormatter
  | [], f => .ok f
  | (tx, txI) :: txs, f =>
      match f.txIds.lookup (block.height, txI) with
      | none => .error .txIdMissing
      | some txId =>
          match f.txFmt.fmt (some block.height) tx txId with
          | .error panic => .error panic
          | .ok txFmt => fmtTxs block txs
              { f with
                txFmt := txFmt
                blockTxFmt := f.blockTxFmt.fmtWith (BlockTxFormatter.row block txId) }

def fmt (block : BlockData) (f : BlockFormatter) : Except FormatPanic BlockFormatter :=
  fmtTxs block block.data.txdata.zipIdx (f.fmtOne block)

def fmtBlocks : List BlockData → BlockFormatter → Except FormatPanic BlockFormatter
  | [], f => .ok f
  | block :: blocks, f =>
      match f.fmt block with
      | .error panic => .error panic
      | .ok f => fmtBlocks blocks f

end BlockFormatter

/-- `vec![event_q, block_q, block_tx_q, tx_q, output_q, input_q]`. -/
structure Queries where
  event : List (Insert HashId)
  block : List (Insert BlockRow)
  blockTx : List (Insert BlockTxRow)
  tx : List (Insert TxRow)
  output : List (Insert OutputRow)
  input : List (Insert InputRow)
  deriving DecidableEq

def BlockFormatter.drop (f : BlockFormatter) : Queries where
  event := f.event.drop
  block := f.block.drop
  blockTx := f.blockTxFmt.drop
  tx := f.txFmt.tx.drop
  output := f.txFmt.outputFmt.drop
  input := f.txFmt.inputFmt.drop

def fmtInsertBlockdataSql (blocks : List BlockData) (inputsUtxoMap : UtxoDetailsMap)
    (txIds : TxIdMap) (mode : Mode) (network : Network) : Except FormatPanic Queries :=
  ((BlockFormatter.new mode network inputsUtxoMap txIds).fmtBlocks blocks).map (·.drop)

/-! ## Executing the queries -/

/-- `batch_execute` of one query string: its statements in order. -/
def batchExecute {ρ : Type} (execute : Insert ρ → Db → Except SqlError Db) :
    List (Insert ρ) → Db → Except SqlError Db
  | [], db => .ok db
  | statement :: statements, db =>
      match execute statement db with
      | .error e => .error e
      | .ok db => batchExecute execute statements db

def Queries.toList (queries : Queries) : List (Db → Except SqlError Db) :=
  [batchExecute Db.insertEvent queries.event, batchExecute Db.insertBlock queries.block,
    batchExecute Db.insertBlockTx queries.blockTx, batchExecute Db.insertTx queries.tx,
    batchExecute Db.insertOutput queries.output, batchExecute Db.insertInput queries.input]

/-- Run query strings one after the other: the transaction's state and, where one
fails, its error. -/
def executeAll : List (Db → Except SqlError Db) → Db → Db × Option SqlError
  | [], db => (db, none)
  | query :: queries, db =>
      match query db with
      | .error e => (db, some e)
      | .ok db => executeAll queries db

end BitcoinIndexer.Formatter
