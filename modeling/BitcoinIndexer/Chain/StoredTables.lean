import BitcoinIndexer.Chain.UniqueKeys
import BitcoinIndexer.Fees.SpentOutputs

/-!
# What the tables hold

The transactions, outputs and inputs of every block that was ever stored are in the
tables, those of extinct blocks included, and nothing else is.
-/

namespace BitcoinIndexer.StoredTables

open BitcoinIndexer.Types
open BitcoinIndexer.Tables
open BitcoinIndexer.Formatter
open BitcoinIndexer.KeyedTable
open BitcoinIndexer.ReferenceChain
open BitcoinIndexer.StoredRows
open BitcoinIndexer.Representation
open BitcoinIndexer.Execution
open BitcoinIndexer.ChainState
open BitcoinIndexer.MinedTransactions
open BitcoinIndexer.CurrentHeight
open BitcoinIndexer.UniqueKeys
open BitcoinIndexer.Fees

/-- The outputs of the transactions of some blocks. -/
def outputsIn (network : Network) (blocks : List BlockData) : List OutputRow :=
  (txsOf network blocks).flatMap (outputRows network)

def inputsIn (network : Network) (blocks : List BlockData) : List InputRow :=
  (txsOf network blocks).flatMap inputRows

/-- The row is that of a mined transaction, its fee and its `current_height` aside. -/
structure TellsTx (tx : NamedTx) (row : TxRow) : Prop where
  mempoolTs : row.mempoolTs = none
  locktime : row.locktime = tx.2.lockTime
  weight : row.weight = tx.2.weight
  coinbase : row.coinbase = tx.2.isCoinBase
  hashId : row.hashId = hashToHashId tx.1
  hashRest : row.hashRest = hashRest tx.1

/-- The tables hold the rows of the blocks `known`; where a row was stored already under the
same key, in the place of another one. -/
structure Holds (network : Network) (known : List BlockData) (db : Db) : Prop where
  blockTx : Linked network known db
  tx : ∀ row ∈ db.tx, ∃ tx ∈ txsOf network known, TellsTx tx row
  txKeys : ∀ hashId, hashId ∈ db.tx.map (·.hashId) ↔
    ∃ block ∈ known, hashId ∈ txHashIds network block
  output : ∀ row ∈ db.output, row ∈ outputsIn network known
  outputKeys : ∀ key, key ∈ db.output.map outputKey ↔
    key ∈ (outputsIn network known).map outputKey
  input : ∀ row ∈ db.input, row ∈ inputsIn network known
  inputKeys : ∀ key, key ∈ db.input.map inputKey ↔ key ∈ (inputsIn network known).map inputKey

variable {network : Network} {known blocks : List BlockData} {db after : Db} {mode : Mode}
variable {inputsUtxoMap : UtxoDetailsMap} {given : Set BlockData} {P : Db → Commit → Prop}
variable {t : BlockTree} {tx : NamedTx} {row : TxRow}

theorem TellsTx.atHeight (h : TellsTx tx row) (height : Option BlockHeight) :
    TellsTx tx { row with currentHeight := height } :=
  ⟨h.mempoolTs, h.locktime, h.weight, h.coinbase, h.hashId, h.hashRest⟩

theorem tellsTx_txRow (height : BlockHeight) (tx : NamedTx) :
    TellsTx tx (txRow inputsUtxoMap height tx) :=
  ⟨rfl, rfl, rfl, rfl, rfl, rfl⟩

/-- The rows of a batch in `tx` are those of the transactions of its blocks. -/
theorem tells_tx_rows :
    ∀ row ∈ (rowsOf network inputsUtxoMap blocks).tx,
      ∃ tx ∈ txsOf network blocks, TellsTx tx row := by
  intro row hmem
  obtain ⟨block, hblock, hrow⟩ := List.mem_flatMap.1 hmem
  obtain ⟨tx, htx, rfl⟩ := List.mem_map.1 hrow
  exact ⟨tx, List.mem_flatMap.2 ⟨block, hblock, htx⟩, tellsTx_txRow block.height tx⟩

@[simp]
theorem outputsIn_append (left right : List BlockData) :
    outputsIn network (left ++ right) = outputsIn network left ++ outputsIn network right := by
  simp [outputsIn]

@[simp]
theorem inputsIn_append (left right : List BlockData) :
    inputsIn network (left ++ right) = inputsIn network left ++ inputsIn network right := by
  simp [inputsIn]

theorem output_rows_eq : (rowsOf network inputsUtxoMap blocks).output = outputsIn network blocks :=
  output_rows

theorem input_rows_eq : (rowsOf network inputsUtxoMap blocks).input = inputsIn network blocks :=
  input_rows

/-- The ids in `tx` are the stored ones and those of the batch. -/
theorem mem_tx_executed_hashIds
    (hexecuted : Executed mode (rowsOf network inputsUtxoMap blocks) db after) {hashId : HashId} :
    hashId ∈ after.tx.map (·.hashId) ↔ hashId ∈ db.tx.map (·.hashId) ∨
      ∃ block ∈ blocks, hashId ∈ txHashIds network block := by
  have hnamed : hashId ∈ (rowsOf network inputsUtxoMap blocks).tx.map (·.hashId) ↔
      ∃ block ∈ blocks, hashId ∈ txHashIds network block := mem_tx_hashIds
  rw [← hnamed]
  have htx := hexecuted.tx
  cases hmode : mode.isBulk with
  | true =>
      rw [TxExecuted, if_pos hmode] at htx
      exact mem_keys_insertRows (txClash_key db.schema) htx
  | false =>
      rw [TxExecuted, if_neg (by simp [hmode])] at htx
      by_cases hrows : (rowsOf network inputsUtxoMap blocks).tx = []
      · rw [htx.1, hrows]
        simp [upsertRows]
      · rw [htx.1, htx.2 hrows]
        exact mem_map_key_upsertRows mergesBy_hashId

/-- Whatever is true of the stored rows of `tx` and of those of the batch is true of the rows
that it leaves, if `current_height` does not matter to it. -/
theorem forall_tx_executed {P : TxRow → Prop}
    (hexecuted : Executed mode (rowsOf network inputsUtxoMap blocks) db after)
    (hheight : ∀ row height, P row → P { row with currentHeight := height })
    (hstored : ∀ row ∈ db.tx, P row)
    (hrows : ∀ row ∈ (rowsOf network inputsUtxoMap blocks).tx, P row) :
    ∀ row ∈ after.tx, P row := by
  have htx := hexecuted.tx
  cases hmode : mode.isBulk with
  | true =>
      rw [TxExecuted, if_pos hmode] at htx
      exact fun row hmem => (mem_of_insertRows htx hmem).elim (hstored row) (hrows row)
  | false =>
      rw [TxExecuted, if_neg (by simp [hmode])] at htx
      rw [htx.1]
      exact forall_upsertRows hstored hrows fun new old hold => hheight old new.currentHeight hold

/-- A batch adds the rows of its blocks. -/
theorem Holds.executed (h : Holds network known db)
    (hexecuted : Executed mode (rowsOf network inputsUtxoMap blocks) db after) :
    Holds network (known ++ blocks) after where
  blockTx := h.blockTx.executed hexecuted
  tx := by
    rw [txsOf_append]
    apply forall_tx_executed (P := fun row =>
      ∃ tx ∈ txsOf network known ++ txsOf network blocks, TellsTx tx row) hexecuted
    · exact fun row height ⟨tx, hmem, htells⟩ => ⟨tx, hmem, htells.atHeight height⟩
    · intro row hmem
      obtain ⟨tx, htx, htells⟩ := h.tx row hmem
      exact ⟨tx, List.mem_append_left _ htx, htells⟩
    · intro row hmem
      obtain ⟨tx, htx, htells⟩ := tells_tx_rows row hmem
      exact ⟨tx, List.mem_append_right _ htx, htells⟩
  txKeys := by
    intro hashId
    rw [mem_tx_executed_hashIds hexecuted, h.txKeys]
    simp [or_and_right, exists_or]
  output := by
    intro row hmem
    rw [outputsIn_append, List.mem_append]
    have hrows := hexecuted.output
    rw [output_rows_eq] at hrows
    exact (mem_of_insertRows hrows hmem).imp_left (h.output row)
  outputKeys := by
    intro key
    rw [mem_keys_insertRows (outputClash_key db.schema) hexecuted.output, h.outputKeys,
      outputsIn_append, List.map_append, List.mem_append, output_rows_eq]
  input := by
    intro row hmem
    rw [inputsIn_append, List.mem_append]
    have hrows := hexecuted.input
    rw [input_rows_eq] at hrows
    exact (mem_of_insertRows hrows hmem).imp_left (h.input row)
  inputKeys := by
    intro key
    rw [mem_keys_insertRows (inputClash_key db.schema) hexecuted.input, h.inputKeys,
      inputsIn_append, List.map_append, List.mem_append, input_rows_eq]

/-- What a reorg does before its batch leaves these rows alone. -/
theorem Holds.reorganized (h : Holds network known db) (height : BlockHeight)
    (revived : List BlockData) : Holds network known (reorganized height revived db) := by
  have hids : (ChainState.reorganized height revived db).tx.map (·.hashId) =
      db.tx.map (·.hashId) := map_hashId_reviveAll revived _
  have htells : ∀ row ∈ (ChainState.reorganized height revived db).tx,
      ∃ tx ∈ txsOf network known, TellsTx tx row := by
    intro row hmem
    obtain ⟨old, hold, hsame, -⟩ := mem_tx_reviveAll revived hmem
    obtain ⟨tx, htx, htold⟩ := h.tx old hold
    exact ⟨tx, htx, hsame ▸ htold.atHeight row.currentHeight⟩
  obtain ⟨eventIdSeq, event, rows, tx, hframe⟩ := reorganized_frame height revived db
  rw [hframe] at hids htells ⊢
  exact ⟨h.blockTx, htells, fun hashId => hids ▸ h.txKeys hashId, h.output, h.outputKeys, h.input,
    h.inputKeys⟩

/-- Every committed state holds the rows of the blocks it has ever stored. -/
theorem holds (hcommitted : Committed given network P t db) : Holds network t.known db := by
  induction hcommitted with
  | fresh bulkMode =>
      constructor <;> simp [Linked, BlockTree.empty, Db.empty, outputsIn, inputsIn, txsOf]
  | batch mode inputsUtxoMap queries blocks hbefore hready hgiven hextends hP hqueries hexecute
      hknown hchain ih =>
      rw [hknown]
      exact ih.executed (executed (saying_of_fmt (heights_nodup hextends) hqueries) hexecute)
  | reorg mode inputsUtxoMap queries height revived new hbefore hready hgiven hrevived hextends hP
      hqueries hexecute hknown hchain ih =>
      rw [hknown]
      exact (ih.reorganized height revived).executed
        (executed (saying_of_fmt (heights_nodup (extends_append.1 hextends).2) hqueries) hexecute)
  | schema mode hbefore hunique ih | bulkMode bulk hbefore ih | burn transaction hbefore ih =>
      exact ⟨ih.blockTx, ih.tx, ih.txKeys, ih.output, ih.outputKeys, ih.input, ih.inputKeys⟩

/-- The normal schema has its keys. -/
theorem keysUnique_of_committed (hcommitted : Committed given network P t db)
    (hschema : db.schema = .normal) : keysUnique .normal db := by
  induction hcommitted with
  | fresh bulkMode => simp [Db.empty] at hschema
  | batch mode inputsUtxoMap queries blocks hbefore hready hgiven hextends hP hqueries hexecute
      hknown hchain ih =>
      have hexecuted := executed (saying_of_fmt (heights_nodup hextends) hqueries) hexecute
      rw [hexecuted.schema] at hschema
      exact keysUnique_executed hexecuted hschema (ih hschema)
  | @reorg t t' db after mode inputsUtxoMap queries height revived new hbefore hready hgiven
      hrevived hextends hP hqueries hexecute hknown hchain ih =>
      have hparts := extends_append.1 hextends
      have hexecuted := executed (saying_of_fmt (heights_nodup hparts.2) hqueries) hexecute
      rw [hexecuted.schema] at hschema
      apply keysUnique_executed hexecuted hschema
      have hids : (ChainState.reorganized height revived db).tx.map (·.hashId) =
          db.tx.map (·.hashId) := map_hashId_reviveAll revived _
      obtain ⟨eventIdSeq, event, rows, tx, hframe⟩ := reorganized_frame height revived db
      rw [hframe] at hids hschema ⊢
      rw [keysUnique, hids]
      exact ih hschema
  | schema mode hbefore hunique ih => exact hschema ▸ hunique
  | bulkMode bulk hbefore ih => exact ih hschema
  | burn transaction hbefore ih => exact ih hschema

/-! ## All the rows -/

/-- The tables have the rows of the blocks `known` and no other ones: those of `block` as they
were inserted, with the blocks off one chain marked extinct, and in the normal schema one under
every key. -/
structure Stores (network : Network) (known : List BlockData) (db : Db) : Prop
    extends Holds network known db where
  distinct : (hashIds known).Nodup
  block : ∃ chain, chain ⊆ known ∧ Extends [] chain ∧ db.block = known.map (rowIn chain)
  keys : db.schema = .normal → keysUnique .normal db

theorem Stores.hashIds_eq (h : Stores network known db) :
    db.block.map (·.hashId) = hashIds known := by
  obtain ⟨chain, -, -, hrows⟩ := h.block
  rw [hrows, List.map_map]
  rfl

theorem stores (hcommitted : Committed given network P t db) : Stores network t.known db where
  toHolds := holds hcommitted
  distinct := t.distinct
  block := ⟨t.chain, fun block hmem => t.stored block hmem, t.linked, hcommitted.shows.rows⟩
  keys := keysUnique_of_committed hcommitted

end BitcoinIndexer.StoredTables
