import BitcoinIndexer.Db.HashParts
import BitcoinIndexer.Db.Formatter

/-!
# The text of the queries

The writers as the code has them: each appends to its string, and counts the values of the
statement it has open.  How the `bitcoin` crate displays an address is a parameter.
-/

namespace BitcoinIndexer.QueryText

open BitcoinIndexer.Types
open BitcoinIndexer.Tables
open BitcoinIndexer.HashParts
open BitcoinIndexer.Formatter (sqlInsertValuesSize FormatPanic UtxoDetailsMap TxIdMap)

/-- The characters of a string of the source. -/
def chars (text : String) : List Char := text.toList

/-! ## Multi-value statements -/

structure MultiValueSqlFormatter where
  out : List Char
  opening : List Char
  onConflict : List Char
  queryValuesCount : ℕ

namespace MultiValueSqlFormatter

def newOnConflictDoNothingAuto (opening : String) (mode : Mode) : MultiValueSqlFormatter where
  out := []
  opening := chars opening
  onConflict := if mode.isBulk then [] else chars "ON CONFLICT DO NOTHING"
  queryValuesCount := 0

def newNoConflictCheck (opening : String) : MultiValueSqlFormatter where
  out := []
  opening := chars opening
  onConflict := []
  queryValuesCount := 0

def newOnConflictDoNothing (opening : String) : MultiValueSqlFormatter where
  out := []
  opening := chars opening
  onConflict := chars "ON CONFLICT DO NOTHING"
  queryValuesCount := 0

def newTxOnConflictUpdateCurrentHeight (opening : String) : MultiValueSqlFormatter where
  out := []
  opening := chars opening
  onConflict :=
    chars "ON CONFLICT (hash_id) DO UPDATE SET current_height = EXCLUDED.current_height"
  queryValuesCount := 0

def terminateQuery (f : MultiValueSqlFormatter) : MultiValueSqlFormatter :=
  { f with out := f.out ++ f.onConflict ++ chars ";", queryValuesCount := 0 }

def maybeTerminateQuery (f : MultiValueSqlFormatter) : MultiValueSqlFormatter :=
  if f.queryValuesCount > sqlInsertValuesSize then f.terminateQuery else f

/-- What precedes the next value. -/
def separator (f : MultiValueSqlFormatter) : List Char :=
  if f.queryValuesCount = 0 then f.opening else chars ","

def fmtWith (value : List Char) (f : MultiValueSqlFormatter) : MultiValueSqlFormatter :=
  { f.maybeTerminateQuery with
    out := f.maybeTerminateQuery.out ++ f.maybeTerminateQuery.separator ++ value
    queryValuesCount := f.maybeTerminateQuery.queryValuesCount + 1 }

/-- `Drop`: what is left is the string. -/
def drop (f : MultiValueSqlFormatter) : List Char :=
  if f.queryValuesCount > 0 then f.terminateQuery.out else f.out

end MultiValueSqlFormatter

/-! ## Values -/

section Writers

variable (display : Address → List Char)

/-- `{}` of an integer. -/
def displayNat (n : ℕ) : List Char := Nat.toDigits 10 n

/-- `{}` of a `bool`. -/
def displayBool (b : Bool) : List Char := if b then chars "true" else chars "false"

def writeHashHex (hash : Sha256dHash) : List Char := encodeHex hash.inner

def OutputFormatter.opening : String :=
  "INSERT INTO output(tx_hash_id, tx_idx, value, address)VALUES"

def OutputFormatter.value (network : Network) (txId : Sha256dHash) (output : TxOut)
    (vout : ℕ) : List Char :=
  chars "('\\x" ++ writeHashIdHex txId ++ chars "'::bytea," ++ displayNat vout ++ chars "," ++
    displayNat output.value ++ chars "," ++
    ((addressFromScript output.scriptPubkey network).map fun address =>
      chars "'" ++ display address ++ chars "'").getD (chars "NULL") ++ chars ")"

def InputFormatter.opening : String :=
  "INSERT INTO input(output_tx_hash_id,output_tx_idx,tx_hash_id,has_witness)VALUES"

def InputFormatter.value (txId : Sha256dHash) (input : TxIn) : List Char :=
  chars "('\\x" ++ writeHashIdHex input.previousOutput.txid ++ chars "'::bytea," ++
    displayNat input.previousOutput.vout ++ chars ",'\\x" ++ writeHashIdHex txId ++
    chars "'::bytea," ++ displayBool (!input.witness.isEmpty) ++ chars ")"

def BlockTxFormatter.opening : String := "INSERT INTO block_tx(block_hash_id, tx_hash_id)VALUES"

def BlockTxFormatter.value (block : BlockData) (txId : Sha256dHash) : List Char :=
  chars "('\\x" ++ writeHashIdHex block.id ++ chars "'::bytea,'\\x" ++ writeHashIdHex txId ++
    chars "'::bytea)"

structure TxFormatter where
  tx : MultiValueSqlFormatter
  outputFmt : MultiValueSqlFormatter
  inputFmt : MultiValueSqlFormatter
  network : Network
  inputsUtxoMap : UtxoDetailsMap
  fromMempool : Bool

namespace TxFormatter

def openingInBlock : String :=
  "INSERT INTO tx (hash_id, hash_rest, weight, fee, locktime, coinbase, current_height) VALUES"

def openingInMempool : String :=
  "INSERT INTO tx (hash_id, hash_rest, weight, fee, locktime, coinbase, current_height, mempool_ts) VALUES"

def newForInBlock (mode : Mode) (network : Network) (inputsUtxoMap : UtxoDetailsMap) :
    TxFormatter where
  tx :=
    if mode.isBulk then .newNoConflictCheck openingInBlock
    else .newTxOnConflictUpdateCurrentHeight openingInBlock
  outputFmt := .newOnConflictDoNothingAuto OutputFormatter.opening mode
  inputFmt := .newOnConflictDoNothingAuto InputFormatter.opening mode
  network := network
  inputsUtxoMap := inputsUtxoMap
  fromMempool := false

def newForInMempool (network : Network) (inputsUtxoMap : UtxoDetailsMap) : TxFormatter where
  tx := .newOnConflictDoNothing openingInMempool
  outputFmt := .newOnConflictDoNothingAuto OutputFormatter.opening .normal
  inputFmt := .newOnConflictDoNothingAuto InputFormatter.opening .normal
  network := network
  inputsUtxoMap := inputsUtxoMap
  fromMempool := true

def value (fromMempool : Bool) (blockHeight : Option BlockHeight) (tx : Transaction)
    (txId : Sha256dHash) (fee : ℕ) : List Char :=
  chars "('\\x" ++ writeHashIdHex txId ++ chars "'::bytea,'\\x" ++ writeHashRestHex txId ++
    chars "'::bytea," ++ displayNat tx.weight ++ chars "," ++ displayNat fee ++ chars "," ++
    displayNat tx.lockTime ++ chars "," ++ displayBool tx.isCoinBase ++ chars "," ++
    (blockHeight.map displayNat).getD (chars "NULL") ++
    (if fromMempool then chars ",timezone('utc', now())" else []) ++ chars ")"

def fmtOne (blockHeight : Option BlockHeight) (tx : Transaction) (txId : Sha256dHash)
    (fee : ℕ) (f : TxFormatter) : TxFormatter :=
  { f with tx := f.tx.fmtWith (value f.fromMempool blockHeight tx txId fee) }

def fmt (blockHeight : Option BlockHeight) (tx : Transaction) (txId : Sha256dHash)
    (f : TxFormatter) : Except FormatPanic TxFormatter :=
  match Formatter.TxFormatter.fee f.inputsUtxoMap tx with
  | .error panic => .error panic
  | .ok fee => .ok
      { f.fmtOne blockHeight tx txId fee with
        outputFmt := tx.output.zipIdx.foldl
          (fun outputs output =>
            outputs.fmtWith (OutputFormatter.value display f.network txId output.1 output.2))
          f.outputFmt
        inputFmt :=
          if tx.isCoinBase then f.inputFmt
          else tx.input.foldl
            (fun inputs input => inputs.fmtWith (InputFormatter.value txId input)) f.inputFmt }

end TxFormatter

structure BlockFormatter where
  event : MultiValueSqlFormatter
  block : MultiValueSqlFormatter
  txFmt : TxFormatter
  blockTxFmt : MultiValueSqlFormatter
  txIds : TxIdMap

namespace BlockFormatter

def openingEvent : String := "INSERT INTO event (block_hash_id) VALUES"

def opening : String :=
  "INSERT INTO block (hash_id, hash_rest, prev_hash_id, merkle_root, height, time) VALUES"

def new (mode : Mode) (network : Network) (inputsUtxoMap : UtxoDetailsMap) (txIds : TxIdMap) :
    BlockFormatter where
  event := .newOnConflictDoNothingAuto openingEvent mode
  block := .newOnConflictDoNothingAuto opening mode
  txFmt := .newForInBlock mode network inputsUtxoMap
  blockTxFmt := .newOnConflictDoNothingAuto BlockTxFormatter.opening mode
  txIds := txIds

def eventValue (block : BlockData) : List Char :=
  chars "('\\x" ++ writeHashIdHex block.id ++ chars "'::bytea)"

def value (block : BlockData) : List Char :=
  chars "('\\x" ++ writeHashIdHex block.id ++ chars "'::bytea,'\\x" ++
    writeHashRestHex block.id ++ chars "'::bytea,'\\x" ++
    writeHashIdHex block.data.header.prevBlockhash ++ chars "'::bytea,'\\x" ++
    writeHashHex block.data.header.merkleRoot ++ chars "'::bytea," ++
    displayNat block.height ++ chars "," ++ displayNat block.data.header.time ++ chars ")"

def fmtOne (block : BlockData) (f : BlockFormatter) : BlockFormatter :=
  { f with
    event := f.event.fmtWith (eventValue block)
    block := f.block.fmtWith (value block) }

def fmtTxs (block : BlockData) :
    List (Transaction × ℕ) → BlockFormatter → Except FormatPanic BlockFormatter
  | [], f => .ok f
  | (tx, txI) :: txs, f =>
      match f.txIds.lookup (block.height, txI) with
      | none => .error .txIdMissing
      | some txId =>
          match f.txFmt.fmt display (some block.height) tx txId with
          | .error panic => .error panic
          | .ok txFmt => fmtTxs block txs
              { f with
                txFmt := txFmt
                blockTxFmt := f.blockTxFmt.fmtWith (BlockTxFormatter.value block txId) }

def fmt (block : BlockData) (f : BlockFormatter) : Except FormatPanic BlockFormatter :=
  fmtTxs display block block.data.txdata.zipIdx (f.fmtOne block)

def fmtBlocks : List BlockData → BlockFormatter → Except FormatPanic BlockFormatter
  | [], f => .ok f
  | block :: blocks, f =>
      match f.fmt display block with
      | .error panic => .error panic
      | .ok f => fmtBlocks blocks f

end BlockFormatter

/-- `vec![event_q, block_q, block_tx_q, tx_q, output_q, input_q]`. -/
structure QueryStrings where
  event : List Char
  block : List Char
  blockTx : List Char
  tx : List Char
  output : List Char
  input : List Char

def BlockFormatter.drop (f : BlockFormatter) : QueryStrings where
  event := f.event.drop
  block := f.block.drop
  blockTx := f.blockTxFmt.drop
  tx := f.txFmt.tx.drop
  output := f.txFmt.outputFmt.drop
  input := f.txFmt.inputFmt.drop

def fmtInsertBlockdataSql (blocks : List BlockData) (inputsUtxoMap : UtxoDetailsMap)
    (txIds : TxIdMap) (mode : Mode) (network : Network) : Except FormatPanic QueryStrings :=
  ((BlockFormatter.new mode network inputsUtxoMap txIds).fmtBlocks display blocks).map (·.drop)

end Writers

end BitcoinIndexer.QueryText
