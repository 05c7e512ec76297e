import BitcoinIndexer.Db.Formatter

/-!
# The cache of unspent outputs

`process_blocks` adds the outputs of a batch to the cache, takes the spent ones out
of it and fetches from `output` what the cache did not have.  The local part and
the queries are separate definitions: other threads may commit between two queries.
-/

namespace BitcoinIndexer.UtxoCache

open BitcoinIndexer.Types
open BitcoinIndexer.Tables
open BitcoinIndexer.Formatter

structure UtxoSetCache where
  entries : UtxoDetailsMap

namespace UtxoSetCache

def default : UtxoSetCache := ⟨∅⟩

def insert (point : HashIdOutPoint) (value : ℕ) (cache : UtxoSetCache) : UtxoSetCache :=
  ⟨cache.entries.insert point ⟨value⟩⟩

/-- The loop over the outputs of one transaction. -/
def insertOutputs (txIds : TxIdMap) (position : BlockHeight × ℕ) :
    List (TxOut × ℕ) → UtxoSetCache → Except FormatPanic UtxoSetCache
  | [], cache => .ok cache
  | (output, idx) :: outputs, cache =>
      match txIds.lookup position with
      | none => .error .txIdMissing
      | some txid =>
          insertOutputs txIds position outputs
            (cache.insert (.fromTxHashAndIdx txid idx) output.value)

def insertTxs (txIds : TxIdMap) (height : BlockHeight) :
    List (Transaction × ℕ) → UtxoSetCache → Except FormatPanic UtxoSetCache
  | [], cache => .ok cache
  | (tx, txI) :: txs, cache =>
      match insertOutputs txIds (height, txI) tx.output.zipIdx cache with
      | .error panic => .error panic
      | .ok cache => insertTxs txIds height txs cache

def insertNewUtxosFromBlocks (txIds : TxIdMap) :
    List BlockData → UtxoSetCache → Except FormatPanic UtxoSetCache
  | [], cache => .ok cache
  | block :: blocks, cache =>
      match insertTxs txIds block.height block.data.txdata.zipIdx cache with
      | .error panic => .error panic
      | .ok cache => insertNewUtxosFromBlocks txIds blocks cache

/-- What `consume_spent_utxos` has gathered: the cache, the outputs found in it and
the outputs missing from it. -/
structure Consumed where
  cache : UtxoSetCache
  found : UtxoDetailsMap
  missing : List HashIdOutPoint

def consumeSpentUtxos : List HashIdOutPoint → Consumed → Consumed
  | [], consumed => consumed
  | output :: outputs, consumed =>
      match consumed.cache.entries.lookup output with
      | some details =>
          consumeSpentUtxos outputs
            { consumed with
              cache := ⟨consumed.cache.entries.erase output⟩
              found := consumed.found.insert output details }
      | none =>
          consumeSpentUtxos outputs { consumed with missing := consumed.missing ++ [output] }

end UtxoSetCache

/-- The outputs the blocks spend, in order. -/
def spentOutputs (blocks : List BlockData) : List HashIdOutPoint :=
  (((blocks.flatMap fun block => block.data.txdata).filter fun tx => !tx.isCoinBase).flatMap
    fun tx => tx.input).map fun input => .ofOutPoint input.previousOutput

def UtxoSetCache.consumeSpentUtxosFromBlocks (blocks : List BlockData) (cache : UtxoSetCache) :
    UtxoSetCache.Consumed :=
  UtxoSetCache.consumeSpentUtxos (spentOutputs blocks) ⟨cache, ∅, []⟩

/-- The part of `process_blocks` before the first query. -/
def UtxoSetCache.processLocal (blocks : List BlockData) (txIds : TxIdMap) (cache : UtxoSetCache) :
    Except FormatPanic UtxoSetCache.Consumed :=
  (cache.insertNewUtxosFromBlocks txIds blocks).map
    (UtxoSetCache.consumeSpentUtxosFromBlocks blocks)

/-! ## Fetching -/

/-- `chunks`: runs of `size` elements, the last one shorter. -/
def chunksFrom {α : Type} (size : ℕ) : List α → List α → List (List α)
  | [], run => if run.isEmpty then [] else [run]
  | value :: values, run =>
      if run.length + 1 < size then chunksFrom size values (run ++ [value])
      else (run ++ [value]) :: chunksFrom size values []

theorem flatten_chunksFrom {α : Type} (size : ℕ) (values run : List α) :
    (chunksFrom size values run).flatten = run ++ values := by
  induction values generalizing run with
  | nil =>
      by_cases hrun : run = []
      · simp [chunksFrom, hrun]
      · simp [chunksFrom, hrun]
  | cons value values ih =>
      by_cases hsize : run.length + 1 < size
      · simp [chunksFrom, hsize, ih]
      · simp [chunksFrom, hsize, ih]

def fmtFetchOutputsSql (outputs : List HashIdOutPoint) : List (List HashIdOutPoint) :=
  chunksFrom sqlInsertValuesSize outputs []

@[simp]
theorem flatten_fmtFetchOutputsSql (outputs : List HashIdOutPoint) :
    (fmtFetchOutputsSql outputs).flatten = outputs :=
  flatten_chunksFrom _ _ _

/-- `SELECT tx_hash_id, tx_idx, value FROM output WHERE (tx_hash_id, tx_idx) IN (VALUES ..)`. -/
def outputsIn (chunk : List HashIdOutPoint) (db : Db) : List OutputRow :=
  db.output.filter fun row => (⟨row.txHashId, row.txIdx⟩ : HashIdOutPoint) ∈ chunk

def fetchChunk (chunk : List HashIdOutPoint) (db : Db) (out : UtxoDetailsMap) : UtxoDetailsMap :=
  (outputsIn chunk db).foldl
    (fun out row => out.insert ⟨row.txHashId, row.txIdx⟩ ⟨row.value⟩) out

/-- `assert_eq!(missing_len, out.len())`; nothing is fetched, and nothing checked,
when nothing is missing. -/
def fetchedAll (missing : List HashIdOutPoint) (out : UtxoDetailsMap) : Bool :=
  missing.isEmpty ∨ missing.length = out.keys.length

/-- `inputs_utxo_map.insert` of everything fetched. -/
def insertFetched (found out : UtxoDetailsMap) : UtxoDetailsMap :=
  out.entries.foldl (fun found entry => found.insert entry.1 entry.2) found

end BitcoinIndexer.UtxoCache
