import Mathlib.Data.List.Sort
import BitcoinIndexer.Types
import BitcoinIndexer.Core.KeyedTable

/-!
# The database

The tables of `init.sql` as lists of rows in insertion order, the unique keys each
schema mode maintains, and the statements the indexer executes, with the effect
they have when they succeed and the error they end with when a key is violated.
The sequence behind `event.id` is part of the state because it is not rolled back.
-/

namespace BitcoinIndexer.Tables

open BitcoinIndexer.Types
open BitcoinIndexer.KeyedTable

inductive Mode where
  | freshBulk
  | bulk
  | normal
  deriving DecidableEq

def Mode.isBulk : Mode → Bool
  | .freshBulk => true
  | .bulk => true
  | .normal => false

inductive SqlError where
  /-- The statement did not reach the server or was refused there. -/
  | failed
  | uniqueViolation
  /-- `ON CONFLICT (hash_id)` without a unique key on that column. -/
  | noArbiter
  /-- `ON CONFLICT DO UPDATE` met the same row twice in one statement. -/
  | affectedTwice
  | tooManyRows
  deriving DecidableEq

structure EventRow where
  id : ℕ
  revert : Bool
  blockHashId : HashId
  deriving DecidableEq

structure BlockRow where
  time : ℕ
  height : BlockHeight
  extinct : Bool
  hashId : HashId
  hashRest : List UInt8
  prevHashId : HashId
  merkleRoot : List UInt8
  deriving DecidableEq

structure BlockTxRow where
  blockHashId : HashId
  txHashId : HashId
  deriving DecidableEq

structure TxRow where
  mempoolTs : Option ℕ
  fee : ℕ
  locktime : ℕ
  currentHeight : Option BlockHeight
  weight : ℕ
  coinbase : Bool
  hashId : HashId
  hashRest : List UInt8
  deriving DecidableEq

structure OutputRow where
  value : ℕ
  txIdx : ℕ
  txHashId : HashId
  address : Option Address
  deriving DecidableEq

structure InputRow where
  outputTxIdx : ℕ
  hasWitness : Bool
  outputTxHashId : HashId
  txHashId : HashId
  deriving DecidableEq

/-- The `bulk_mode` column of `indexer_state` (`none` before its row is there), the
schema last applied, and the tables. -/
structure Db where
  bulkMode : Option Bool
  schema : Mode
  eventIdSeq : ℕ
  event : List EventRow
  block : List BlockRow
  blockTx : List BlockTxRow
  tx : List TxRow
  output : List OutputRow
  input : List InputRow
  deriving DecidableEq

def Db.empty : Db := ⟨none, .freshBulk, 1, [], [], [], [], [], []⟩

/-! ## Unique keys -/

/-- The key of `block` and `block_height_for_not_extinct`: both exist in every mode. -/
def blockClash (new old : BlockRow) : Bool :=
  new.hashId = old.hashId ∨
    new.height = old.height ∧ new.extinct = false ∧ old.extinct = false

def blockTxClash (schema : Mode) (new old : BlockTxRow) : Bool :=
  schema = .normal ∧ new.blockHashId = old.blockHashId ∧ new.txHashId = old.txHashId

def txClash (schema : Mode) (new old : TxRow) : Bool :=
  schema = .normal ∧ new.hashId = old.hashId

/-- Bulk mode keeps this key: outputs have to be found by it. -/
def outputClash (schema : Mode) (new old : OutputRow) : Bool :=
  schema ≠ .freshBulk ∧ new.txHashId = old.txHashId ∧ new.txIdx = old.txIdx

def inputClash (schema : Mode) (new old : InputRow) : Bool :=
  schema = .normal ∧ new.outputTxHashId = old.outputTxHashId ∧
    new.outputTxIdx = old.outputTxIdx ∧ new.txHashId = old.txHashId

/-! ## Insert statements -/

inductive OnConflict where
  | raise
  | doNothing
  | updateCurrentHeight
  deriving DecidableEq

/-- One multi-value `INSERT` with its conflict clause. -/
structure Insert (ρ : Type) where
  values : List ρ
  onConflict : OnConflict
  deriving DecidableEq

def insertInto {ρ : Type} (clash : ρ → ρ → Bool) (statement : Insert ρ) (table : List ρ) :
    Except SqlError (List ρ) :=
  match statement.onConflict with
  | .updateCurrentHeight => .error .noArbiter
  | .raise =>
      (insertRows clash false table statement.values).elim (.error .uniqueViolation) .ok
  | .doNothing =>
      (insertRows clash true table statement.values).elim (.error .uniqueViolation) .ok

/-- `SET current_height = EXCLUDED.current_height`. -/
def updateCurrentHeight (excluded old : TxRow) : TxRow :=
  { old with currentHeight := excluded.currentHeight }

def insertIntoTx (schema : Mode) (statement : Insert TxRow) (table : List TxRow) :
    Except SqlError (List TxRow) :=
  match statement.onConflict with
  | .updateCurrentHeight =>
      if schema ≠ .normal then .error .noArbiter
      else if ¬ (statement.values.map (·.hashId)).Nodup then .error .affectedTwice
      else .ok (upsertRows (txClash schema) updateCurrentHeight table statement.values)
  | _ => insertInto (txClash schema) statement table

/-- The event rows of an insert: consecutive values of the sequence. -/
def eventRows (revert : Bool) : ℕ → List HashId → List EventRow
  | _, [] => []
  | seq, hashId :: hashIds => ⟨seq, revert, hashId⟩ :: eventRows revert (seq + 1) hashIds

def Db.insertEvents (revert : Bool) (hashIds : List HashId) (db : Db) : Db :=
  { db with
    event := db.event ++ eventRows revert db.eventIdSeq hashIds
    eventIdSeq := db.eventIdSeq + hashIds.length }

/-- The only key of `event` is its serial id. -/
def Db.insertEvent (statement : Insert HashId) (db : Db) : Except SqlError Db :=
  .ok (db.insertEvents false statement.values)

def Db.insertBlock (statement : Insert BlockRow) (db : Db) : Except SqlError Db :=
  (insertInto blockClash statement db.block).map fun rows => { db with block := rows }

def Db.insertBlockTx (statement : Insert BlockTxRow) (db : Db) : Except SqlError Db :=
  (insertInto (blockTxClash db.schema) statement db.blockTx).map fun rows =>
    { db with blockTx := rows }

def Db.insertTx (statement : Insert TxRow) (db : Db) : Except SqlError Db :=
  (insertIntoTx db.schema statement db.tx).map fun rows => { db with tx := rows }

def Db.insertOutput (statement : Insert OutputRow) (db : Db) : Except SqlError Db :=
  (insertInto (outputClash db.schema) statement db.output).map fun rows =>
    { db with output := rows }

def Db.insertInput (statement : Insert InputRow) (db : Db) : Except SqlError Db :=
  (insertInto (inputClash db.schema) statement db.input).map fun rows =>
    { db with input := rows }

/-! ## The statements of a reorg -/

/-- `ORDER BY height DESC`. -/
def byHeightDesc (rows : List BlockRow) : List BlockRow :=
  rows.insertionSort fun left right => right.height ≤ left.height

/-- `INSERT INTO event (block_hash_id, revert) SELECT hash_id, true FROM block WHERE
height >= $1 AND NOT extinct ORDER BY height DESC`. -/
def Db.insertRevertEvents (height : BlockHeight) (db : Db) : Db :=
  db.insertEvents true <|
    (byHeightDesc (db.block.filter fun row => height ≤ row.height ∧ row.extinct = false)).map
      (·.hashId)

/-- `UPDATE block SET extinct = true WHERE height >= $1`. -/
def Db.markExtinct (height : BlockHeight) (db : Db) : Db :=
  { db with
    block := db.block.map fun row =>
      if height ≤ row.height then { row with extinct := true } else row }

/-- `UPDATE block SET extinct = false WHERE hash_id = $1`. -/
def Db.unmarkExtinct (hashId : HashId) (db : Db) : Db :=
  { db with
    block := db.block.map fun row =>
      if row.hashId = hashId then { row with extinct := false } else row }

/-- `UPDATE tx SET current_height = NULL WHERE current_height = $1`. -/
def Db.clearCurrentHeight (height : BlockHeight) (db : Db) : Db :=
  { db with
    tx := db.tx.map fun row =>
      if row.currentHeight = some height then { row with currentHeight := none } else row }

/-! ## Queries -/

/-- `SELECT hash_id, hash_rest FROM block WHERE height = $1 AND extinct = false`. -/
def Db.blocksAtHeight (height : BlockHeight) (db : Db) : List (HashId × List UInt8) :=
  (db.block.filter fun row => row.height = height ∧ row.extinct = false).map fun row =>
    (row.hashId, row.hashRest)

/-- `SELECT extinct FROM block WHERE hash_id = $1`, its first row. -/
def Db.readDbBlockExtinctByHashId (hashId : HashId) (db : Db) : Option Bool :=
  ((db.block.filter fun row => row.hashId = hashId).map (·.extinct)).head?

/-- `SELECT max(height) FROM block`, plus one. -/
def Db.readDbChainBlockCount (db : Db) : BlockHeight :=
  ((db.block.map (·.height)).max?.map (· + 1)).getD 0

/-- `SELECT max(height) FROM block WHERE extinct = FALSE`, plus one. -/
def Db.readDbChainCurrentBlockCount (db : Db) : BlockHeight :=
  (((db.block.filter fun row => row.extinct = false).map (·.height)).max?.map (· + 1)).getD 0

/-- The ids of the non-extinct blocks from height 0 on, as the height query finds them. -/
def Db.chain (db : Db) : List BlockHash :=
  (List.range db.readDbChainCurrentBlockCount).filterMap fun height =>
    (db.blocksAtHeight height).head?.bind fun parts => hashIdAndRestToHash parts.1 parts.2

/-! ## Schema modes -/

def keysUnique (schema : Mode) (db : Db) : Prop :=
  (schema ≠ .freshBulk → (db.output.map fun row => (row.txHashId, row.txIdx)).Nodup) ∧
    (schema = .normal →
      (db.blockTx.map fun row => (row.blockHashId, row.txHashId)).Nodup ∧
      (db.tx.map (·.hashId)).Nodup ∧
      (db.input.map fun row => (row.outputTxHashId, row.outputTxIdx, row.txHashId)).Nodup)

instance (schema : Mode) (db : Db) : Decidable (keysUnique schema db) := by
  unfold keysUnique
  infer_instance

/-- Apply the schema of a mode: `mode_fresh.sql` drops the tables and `init.sql`
creates them again, the other two add the keys their mode keeps. -/
def Db.setSchema (mode : Mode) (db : Db) : Except SqlError Db :=
  match mode with
  | .freshBulk => .ok { Db.empty with bulkMode := db.bulkMode }
  | mode => if keysUnique mode db then .ok { db with schema := mode } else .error .uniqueViolation

/-- Dropping a transaction: the tables are as before, the sequence is not. -/
def Db.rollback (db transaction : Db) : Db :=
  { db with eventIdSeq := max db.eventIdSeq transaction.eventIdSeq }

end BitcoinIndexer.Tables
