import BitcoinIndexer.Core.SqlText
import BitcoinIndexer.Db.QueryText

/-!
# The values of the queries

The values a row is inserted with, as text and as tokens, and the six tables as the writers
address them.  What a writer writes for a row is the list of the row's values.
-/

namespace BitcoinIndexer.QueryText

open BitcoinIndexer.Types
open BitcoinIndexer.Tables
open BitcoinIndexer.SqlText
open BitcoinIndexer.HashParts

/-! ## Values -/

inductive SqlValue where
  | bytea (bytes : List UInt8)
  | number (n : ℕ)
  | boolean (b : Bool)
  | string (text : List Char)
  | null
  /-- `timezone('utc', now())` -/
  | now
  deriving DecidableEq

namespace SqlValue

def write : SqlValue → List Char
  | .bytea bytes => chars "'\\x" ++ encodeHex bytes ++ chars "'::bytea"
  | .number n => displayNat n
  | .boolean b => displayBool b
  | .string text => chars "'" ++ text ++ chars "'"
  | .null => chars "NULL"
  | .now => chars "timezone('utc', now())"

@[simp]
theorem write_bytea (bytes : List UInt8) :
    write (.bytea bytes) = chars "'\\x" ++ encodeHex bytes ++ chars "'::bytea" := rfl

@[simp]
theorem write_number (n : ℕ) : write (.number n) = displayNat n := rfl

@[simp]
theorem write_boolean (b : Bool) : write (.boolean b) = displayBool b := rfl

@[simp]
theorem write_string (text : List Char) :
    write (.string text) = chars "'" ++ text ++ chars "'" := rfl

@[simp]
theorem write_null : write .null = chars "NULL" := rfl

def tokens : SqlValue → List Token
  | .bytea bytes =>
      [.literal ('\\' :: 'x' :: encodeHex bytes), .typecast, .word (chars "bytea")]
  | .number n => [.word (displayNat n)]
  | .boolean b => [.word (displayBool b)]
  | .string text => [.literal text]
  | .null => [.word (chars "NULL")]
  | .now =>
      [.word (chars "timezone"), .leftParen, .literal (chars "utc"), .comma, .word (chars "now"),
        .leftParen, .rightParen, .rightParen]

/-- The value that tokens denote. -/
def ofTokens : List Token → Option SqlValue
  | [.literal ('\\' :: 'x' :: digits), .typecast, .word type] =>
      if type = chars "bytea" then (byteaIn digits).map .bytea else none
  | [.literal text] => some (.string text)
  | [.word text] =>
      if text = chars "NULL" then some .null
      else if text = chars "true" then some (.boolean true)
      else if text = chars "false" then some (.boolean false)
      else if text.all Char.isDigit then some (.number (Nat.ofDigitChars 10 text 0))
      else none
  | [.word function, .leftParen, .literal zone, .comma, .word time, .leftParen, .rightParen,
      .rightParen] =>
      if function = chars "timezone" ∧ zone = chars "utc" ∧ time = chars "now" then some .now
      else none
  | _ => none

/-- A string can be written between quotes as it is. -/
def Quotable : SqlValue → Prop
  | .string text => quote ∉ text
  | _ => True

@[simp]
theorem quotable_bytea (bytes : List UInt8) : (bytea bytes).Quotable := trivial

@[simp]
theorem quotable_number (n : ℕ) : (number n).Quotable := trivial

@[simp]
theorem quotable_boolean (b : Bool) : (boolean b).Quotable := trivial

theorem isDigit_displayNat {n : ℕ} {char : Char} (hmem : char ∈ displayNat n) :
    char.isDigit = true :=
  Nat.isDigit_of_mem_toDigits (by decide) (by decide) hmem

theorem quote_not_mem_encodeHex (bytes : List UInt8) : quote ∉ encodeHex bytes := by
  have hdigit : ∀ value < 16, Nat.digitChar value ≠ quote := by decide
  intro hmem
  obtain ⟨byte, -, hchar⟩ := List.mem_flatMap.1 hmem
  have hbyte : byte.toNat < 256 := byte.toNat_lt
  simp only [List.mem_cons, List.not_mem_nil, or_false] at hchar
  obtain heq | heq := hchar
  · exact hdigit _ (by omega) heq.symm
  · exact hdigit _ (by omega) heq.symm

theorem readsAs_write {value : SqlValue} (h : value.Quotable) :
    ReadsAs value.write value.tokens := by
  cases value with
  | bytea bytes =>
      have hquote : quote ∉ '\\' :: 'x' :: encodeHex bytes :=
        List.not_mem_cons_of_ne_of_not_mem (by decide)
          (List.not_mem_cons_of_ne_of_not_mem (by decide) (quote_not_mem_encodeHex bytes))
      have hreads := readsAs_typecast hquote 'b' (chars "ytea") rfl
        (List.all_eq_true.1 (by decide))
      have hwrite : write (.bytea bytes) = quote :: ('\\' :: 'x' :: encodeHex bytes ++ [quote]) ++
          (':' :: ':' :: 'b' :: chars "ytea") := by
        have hopened : chars "'\\x" = [quote, '\\', 'x'] := by decide
        have hclosed : chars "'::bytea" = quote :: ':' :: ':' :: 'b' :: chars "ytea" := by decide
        rw [write_bytea, hopened, hclosed]
        simp only [List.cons_append, List.nil_append, List.append_assoc]
      rw [hwrite]
      exact hreads
  | number n =>
      apply readsAs_word Nat.toDigits_ne_nil
      intro char hmem
      simp [isWordChar, Char.isAlphanum, isDigit_displayNat hmem]
  | boolean b => cases b <;> exact readsAs_word (by decide) (List.all_eq_true.1 (by decide))
  | string text => exact readsAs_literal h
  | null => exact readsAs_word (by decide) (List.all_eq_true.1 (by decide))
  | now => exact ⟨tokens .now, .blank, [], by decide, rfl, rfl⟩

theorem ofTokens_displayNat (n : ℕ) : ofTokens [.word (displayNat n)] = some (.number n) := by
  have hdigits : ∀ char ∈ displayNat n, char.isDigit = true := fun _ hmem => isDigit_displayNat hmem
  have hne : ∀ text : List Char, (∃ char ∈ text, char.isDigit = false) →
      displayNat n ≠ text := by
    rintro text ⟨char, hmem, hfalse⟩ rfl
    simp [hdigits char hmem] at hfalse
  have hall : (displayNat n).all Char.isDigit = true := List.all_eq_true.2 hdigits
  rw [ofTokens, if_neg (hne _ ⟨'N', by decide, rfl⟩), if_neg (hne _ ⟨'t', by decide, rfl⟩),
    if_neg (hne _ ⟨'f', by decide, rfl⟩), if_pos hall, displayNat, Nat.ofDigitChars_ten_toDigits]

/-- What is written is read back. -/
theorem ofTokens_tokens (value : SqlValue) : ofTokens value.tokens = some value := by
  cases value with
  | bytea bytes => simp [tokens, ofTokens, byteaIn_encodeHex]
  | number n => exact ofTokens_displayNat n
  | boolean b => cases b <;> rfl
  | string text => simp [tokens, ofTokens]
  | _ => rfl

theorem balanced_tokens (value : SqlValue) : Balanced value.tokens := by
  cases value with
  | now =>
      intro fields field rows rest
      simp [tokens, readRows]
  | _ => exact balanced_of_plain (by simp [tokens])

theorem semicolon_not_mem_tokens (value : SqlValue) : .semicolon ∉ value.tokens := by
  cases value <;> simp [tokens]

end SqlValue

/-! ## Tables -/

/-- A table as the writers address it: the values of a row, in the order of the columns. -/
structure Table (ρ : Type) where
  opening : List Char
  name : List Char
  columns : List (List Char)
  values : ρ → List SqlValue
  reads : ReadsAs opening (headTokens name columns)
  columns_ne : columns ≠ []
  values_ne : ∀ row, values row ≠ []

theorem readsAs_opening {opening name : List Char} {columns : List (List Char)}
    (hscan : scan .blank opening =
      some (.word "INSERT".toList :: .word "INTO".toList :: .word name ::
        rowTokens (columns.map fun column => [.word column]), .word "VALUES".toList)) :
    ReadsAs opening (headTokens name columns) :=
  ⟨_, _, _, hscan, rfl, rfl⟩

def eventTable : Table HashId where
  opening := chars BlockFormatter.openingEvent
  name := chars "event"
  columns := [chars "block_hash_id"]
  values := fun hashId => [.bytea hashId]
  reads := readsAs_opening (by decide +kernel)
  columns_ne := by simp
  values_ne := by simp

def blockTable : Table BlockRow where
  opening := chars BlockFormatter.opening
  name := chars "block"
  columns := [chars "hash_id", chars "hash_rest", chars "prev_hash_id", chars "merkle_root",
    chars "height", chars "time"]
  values := fun row => [.bytea row.hashId, .bytea row.hashRest, .bytea row.prevHashId,
    .bytea row.merkleRoot, .number row.height, .number row.time]
  reads := readsAs_opening (by decide +kernel)
  columns_ne := by simp
  values_ne := by simp

def blockTxTable : Table BlockTxRow where
  opening := chars BlockTxFormatter.opening
  name := chars "block_tx"
  columns := [chars "block_hash_id", chars "tx_hash_id"]
  values := fun row => [.bytea row.blockHashId, .bytea row.txHashId]
  reads := readsAs_opening (by decide +kernel)
  columns_ne := by simp
  values_ne := by simp

def nullable {α : Type} (value : α → SqlValue) (a : Option α) : SqlValue := (a.map value).getD .null

theorem quotable_nullable {α : Type} {value : α → SqlValue} {a : Option α}
    (h : ∀ value' ∈ a.map value, value'.Quotable) : (nullable value a).Quotable := by
  cases a with
  | none => trivial
  | some a => exact h _ rfl

/-- The `tx` table as the block formatter addresses it. -/
def txTable : Table TxRow where
  opening := chars TxFormatter.openingInBlock
  name := chars "tx"
  columns := [chars "hash_id", chars "hash_rest", chars "weight", chars "fee",
    chars "locktime", chars "coinbase", chars "current_height"]
  values := fun row => [.bytea row.hashId, .bytea row.hashRest, .number row.weight,
    .number row.fee, .number row.locktime, .boolean row.coinbase,
    nullable .number row.currentHeight]
  reads := readsAs_opening (by decide +kernel)
  columns_ne := by simp
  values_ne := by simp

/-- The `tx` table as the mempool indexer addresses it: the server gives the last value. -/
def mempoolTxTable : Table TxRow where
  opening := chars TxFormatter.openingInMempool
  name := chars "tx"
  columns := txTable.columns ++ [chars "mempool_ts"]
  values := fun row => txTable.values row ++ [.now]
  reads := readsAs_opening (by decide +kernel)
  columns_ne := by simp
  values_ne := by simp

def outputTable (display : Address → List Char) : Table OutputRow where
  opening := chars OutputFormatter.opening
  name := chars "output"
  columns := [chars "tx_hash_id", chars "tx_idx", chars "value", chars "address"]
  values := fun row => [.bytea row.txHashId, .number row.txIdx, .number row.value,
    nullable (fun address => .string (display address)) row.address]
  reads := readsAs_opening (by decide +kernel)
  columns_ne := by simp
  values_ne := by simp

def inputTable : Table InputRow where
  opening := chars InputFormatter.opening
  name := chars "input"
  columns := [chars "output_tx_hash_id", chars "output_tx_idx", chars "tx_hash_id",
    chars "has_witness"]
  values := fun row => [.bytea row.outputTxHashId, .number row.outputTxIdx,
    .bytea row.txHashId, .boolean row.hasWitness]
  reads := readsAs_opening (by decide +kernel)
  columns_ne := by simp
  values_ne := by simp

namespace Table

variable {ρ : Type}

def valueText (t : Table ρ) (row : ρ) : List Char := rowText ((t.values row).map SqlValue.write)

end Table

/-! ## The values as the writers write them -/

@[simp]
theorem chars_comma : chars "," = [','] := by decide

@[simp]
theorem chars_close : chars ")" = [')'] := by decide

@[simp]
theorem chars_open_hex : chars "('\\x" = '(' :: chars "'\\x" := by decide

@[simp]
theorem chars_comma_hex : chars ",'\\x" = ',' :: chars "'\\x" := by decide

@[simp]
theorem chars_bytea_hex :
    chars "'::bytea,'\\x" = chars "'::bytea" ++ (',' :: chars "'\\x") := by decide

@[simp]
theorem chars_bytea_comma : chars "'::bytea," = chars "'::bytea" ++ [','] := by decide

@[simp]
theorem chars_bytea_close : chars "'::bytea)" = chars "'::bytea" ++ [')'] := by decide

theorem eventValue_eq (block : BlockData) :
    BlockFormatter.eventValue block = eventTable.valueText (hashToHashId block.id) := by
  simp [BlockFormatter.eventValue, eventTable, Table.valueText, rowText, joined,
    writeHashIdHex, hashToHashId]

theorem blockValue_eq (block : BlockData) :
    BlockFormatter.value block = blockTable.valueText (Formatter.BlockFormatter.row block) := by
  simp [BlockFormatter.value, blockTable, Table.valueText, rowText, joined,
    writeHashIdHex, writeHashRestHex, writeHashHex, hashToHashId, hashRest,
    Formatter.BlockFormatter.row]

theorem blockTxValue_eq (block : BlockData) (txId : Sha256dHash) :
    BlockTxFormatter.value block txId =
      blockTxTable.valueText (Formatter.BlockTxFormatter.row block txId) := by
  simp [BlockTxFormatter.value, blockTxTable, Table.valueText, rowText, joined,
    writeHashIdHex, hashToHashId, Formatter.BlockTxFormatter.row]

theorem txValue_eq (blockHeight : Option BlockHeight) (tx : Transaction) (txId : Sha256dHash)
    (fee : ℕ) :
    TxFormatter.value false blockHeight tx txId fee =
      txTable.valueText (Formatter.TxFormatter.row blockHeight tx txId fee) := by
  cases blockHeight <;>
    simp [TxFormatter.value, txTable, Table.valueText, rowText, joined, nullable, writeHashIdHex,
      writeHashRestHex, hashToHashId, hashRest, Formatter.TxFormatter.row]

theorem mempoolValue_eq (blockHeight : Option BlockHeight) (tx : Transaction)
    (txId : Sha256dHash) (fee : ℕ) :
    TxFormatter.value true blockHeight tx txId fee =
      mempoolTxTable.valueText (Formatter.TxFormatter.row blockHeight tx txId fee) := by
  have hnow : chars ",timezone('utc', now())" = ',' :: SqlValue.now.write := by decide
  cases blockHeight <;>
    simp [TxFormatter.value, mempoolTxTable, txTable, Table.valueText, rowText, joined, nullable,
      writeHashIdHex, writeHashRestHex, hashToHashId, hashRest, Formatter.TxFormatter.row, hnow]

theorem outputValue_eq (display : Address → List Char) (network : Network) (txId : Sha256dHash)
    (output : TxOut) (vout : ℕ) :
    OutputFormatter.value display network txId output vout =
      (outputTable display).valueText (Formatter.OutputFormatter.row network txId output vout) := by
  cases haddress : addressFromScript output.scriptPubkey network <;>
    simp [OutputFormatter.value, outputTable, Table.valueText, rowText, joined,
      nullable, writeHashIdHex, hashToHashId, Formatter.OutputFormatter.row, haddress]

theorem inputValue_eq (txId : Sha256dHash) (input : TxIn) :
    InputFormatter.value txId input =
      inputTable.valueText (Formatter.InputFormatter.row txId input) := by
  simp [InputFormatter.value, inputTable, Table.valueText, rowText, joined,
    writeHashIdHex, hashToHashId, Formatter.InputFormatter.row]

end BitcoinIndexer.QueryText
