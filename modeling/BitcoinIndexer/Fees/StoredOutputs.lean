import BitcoinIndexer.Db.Execution
import BitcoinIndexer.Fees.Cache

/-!
# What the tables hold of a chain

The outputs of the committed blocks are in `output` and their fees in `tx`; no row of
either table says anything else about a transaction of the chain.  A committed batch
whose queries were formatted with the right map keeps this so.
-/

namespace BitcoinIndexer.Fees

open BitcoinIndexer.Types
open BitcoinIndexer.Tables
open BitcoinIndexer.Formatter
open BitcoinIndexer.KeyedTable
open BitcoinIndexer.StoredRows
open BitcoinIndexer.Execution

/-- Of `chain` the blocks `done` are stored, with the values and fees the chain gives
them. -/
structure Stored (network : Network) (chain done : List BlockData) (db : Db) : Prop where
  outputs : ∀ point ∈ createdPoints (txsOf network done), ∃ row ∈ db.output, rowPoint row = point
  values : ∀ row ∈ db.output, rowPoint row ∈ createdPoints (txsOf network chain) →
    row.value = valueOf (txsOf network chain) (rowPoint row)
  txs : ∀ tx ∈ txsOf network done, ∃ row ∈ db.tx, row.hashId = hashToHashId tx.1
  fees : ∀ row ∈ db.tx, ∀ tx ∈ txsOf network chain, row.hashId = hashToHashId tx.1 →
    row.fee = feeIn (txsOf network chain) tx.2

theorem stored_empty (network : Network) (chain : List BlockData) :
    Stored network chain [] .empty := by
  constructor <;> simp [Db.empty, txsOf, createdPoints, created]

section Rows

variable {network : Network} {chain done blocks : List BlockData}
variable (inputsUtxoMap : UtxoDetailsMap)

/-- The rows of `output` are the outputs the blocks create. -/
theorem map_output_rows : (rowsOf network inputsUtxoMap blocks).output.map
    (fun row => (rowPoint row, row.value)) = created (txsOf network blocks) := by
  simp only [rowsOf, rowsBy, created, txsOf, List.map_flatMap, List.flatMap_assoc]
  congr 1
  funext block
  congr 1
  funext tx
  rw [outputRows, List.map_map]
  rfl

theorem mem_output_rows {inputsUtxoMap : UtxoDetailsMap} {row : OutputRow}
    (hmem : row ∈ (rowsOf network inputsUtxoMap blocks).output) :
    (rowPoint row, row.value) ∈ created (txsOf network blocks) := by
  rw [← map_output_rows inputsUtxoMap]
  exact List.mem_map_of_mem hmem

theorem exists_output_row {point : HashIdOutPoint}
    (hmem : point ∈ createdPoints (txsOf network blocks)) :
    ∃ row ∈ (rowsOf network inputsUtxoMap blocks).output, rowPoint row = point := by
  rw [createdPoints, ← map_output_rows inputsUtxoMap, List.map_map] at hmem
  exact List.mem_map.1 hmem

theorem mem_tx_row {inputsUtxoMap : UtxoDetailsMap} {row : TxRow} (hmem : row ∈ (rowsOf network inputsUtxoMap blocks).tx) :
    ∃ tx ∈ txsOf network blocks, row.hashId = hashToHashId tx.1 ∧
      row.fee = feeOf inputsUtxoMap tx.2 := by
  obtain ⟨block, hblock, hrow⟩ := List.mem_flatMap.1 hmem
  obtain ⟨tx, htx, rfl⟩ := List.mem_map.1 hrow
  exact ⟨tx, List.mem_flatMap.2 ⟨block, hblock, htx⟩, rfl, rfl⟩

theorem exists_tx_row {tx : NamedTx} (hmem : tx ∈ txsOf network blocks) :
    ∃ row ∈ (rowsOf network inputsUtxoMap blocks).tx, row.hashId = hashToHashId tx.1 := by
  obtain ⟨block, hblock, htx⟩ := List.mem_flatMap.1 hmem
  exact ⟨txRow inputsUtxoMap block.height tx,
    List.mem_flatMap.2 ⟨block, hblock, List.mem_map_of_mem htx⟩, rfl⟩

end Rows

variable {network : Network} {chain done blocks : List BlockData} {db after : Db}
variable {mode : Mode} {inputsUtxoMap : UtxoDetailsMap}

theorem Valid.tx_eq (h : Valid network chain) {left right : NamedTx}
    (hleft : left ∈ txsOf network chain) (hright : right ∈ txsOf network chain)
    (heq : hashToHashId left.1 = hashToHashId right.1) : left = right :=
  List.inj_on_of_nodup_map h.unique hleft hright heq

/-- With the right map every transaction of the blocks has its fee on the chain. -/
theorem Valid.feeOf_eq (h : Valid network chain) (hsub : blocks ⊆ chain)
    (hright : RightFor (txsOf network chain) (spent (txsOf network blocks)) inputsUtxoMap)
    {tx : NamedTx} (hmem : tx ∈ txsOf network blocks) :
    TxFormatter.fee inputsUtxoMap tx.2 = .ok (feeIn (txsOf network chain) tx.2) := by
  have hchain : tx ∈ txsOf network chain := by
    obtain ⟨block, hblock, htx⟩ := List.mem_flatMap.1 hmem
    exact List.mem_flatMap.2 ⟨block, hsub hblock, htx⟩
  apply fee_eq _ (h.funded tx hchain)
  exact fun point hpoint => hright point (List.mem_flatMap.2 ⟨tx, hmem, hpoint⟩)

theorem txsOf_subset {left right : List BlockData} (hsub : left ⊆ right) :
    txsOf network left ⊆ txsOf network right := by
  intro tx hmem
  obtain ⟨block, hblock, htx⟩ := List.mem_flatMap.1 hmem
  exact List.mem_flatMap.2 ⟨block, hsub hblock, htx⟩

/-- A row the blocks are stored as has the fee of its transaction. -/
theorem Valid.tx_row_fee (h : Valid network chain) (hsub : blocks ⊆ chain)
    (hright : RightFor (txsOf network chain) (spent (txsOf network blocks)) inputsUtxoMap)
    {row : TxRow} (hmem : row ∈ (rowsOf network inputsUtxoMap blocks).tx) {tx : NamedTx}
    (htx : tx ∈ txsOf network chain) (hid : row.hashId = hashToHashId tx.1) :
    row.fee = feeIn (txsOf network chain) tx.2 := by
  obtain ⟨own, hown, hownId, hfee⟩ := mem_tx_row hmem
  have hsame : own = tx := h.tx_eq (txsOf_subset hsub hown) htx (hownId.symm.trans hid)
  rw [hfee, feeOf_of_fee (h.feeOf_eq hsub hright hown), hsame]

namespace Stored

theorem executed_outputs (h : Stored network chain done db) (hvalid : Valid network chain)
    (hsub : blocks ⊆ chain)
    (hexecuted : Executed mode (rowsOf network inputsUtxoMap blocks) db after) :
    (∀ point ∈ createdPoints (txsOf network (done ++ blocks)),
      ∃ row ∈ after.output, rowPoint row = point) ∧
    ∀ row ∈ after.output, rowPoint row ∈ createdPoints (txsOf network chain) →
      row.value = valueOf (txsOf network chain) (rowPoint row) := by
  constructor
  · intro point hmem
    rw [txsOf_append, createdPoints_append] at hmem
    obtain hold | hnew := List.mem_append.1 hmem
    · obtain ⟨row, hrow, hpoint⟩ := h.outputs point hold
      exact ⟨row, (initial_of_insertRows hexecuted.output).subset hrow, hpoint⟩
    · obtain ⟨row, hrow, hpoint⟩ := exists_output_row inputsUtxoMap hnew
      obtain hstored | ⟨old, hold, hclash⟩ := stored_of_insertRows hexecuted.output hrow
      · exact ⟨row, hstored, hpoint⟩
      · refine ⟨old, hold, ?_⟩
        simp only [outputClash, decide_eq_true_eq] at hclash
        rw [← hpoint, rowPoint, rowPoint, hclash.2.1, hclash.2.2]
  · intro row hmem hpoint
    obtain hold | hnew := mem_of_insertRows hexecuted.output hmem
    · exact h.values row hold hpoint
    · have hcreated := mem_output_rows hnew
      obtain ⟨tx, htx, hin⟩ := List.mem_flatMap.1 hcreated
      exact hvalid.value_eq (List.mem_flatMap.2 ⟨tx, txsOf_subset hsub htx, hin⟩)

theorem executed_txs (h : Stored network chain done db) (hvalid : Valid network chain)
    (hsub : blocks ⊆ chain)
    (hright : RightFor (txsOf network chain) (spent (txsOf network blocks)) inputsUtxoMap)
    (hexecuted : Executed mode (rowsOf network inputsUtxoMap blocks) db after) :
    (∀ tx ∈ txsOf network (done ++ blocks), ∃ row ∈ after.tx, row.hashId = hashToHashId tx.1) ∧
    ∀ row ∈ after.tx, ∀ tx ∈ txsOf network chain, row.hashId = hashToHashId tx.1 →
      row.fee = feeIn (txsOf network chain) tx.2 := by
  have hnew : ∀ row ∈ (rowsOf network inputsUtxoMap blocks).tx, ∀ tx ∈ txsOf network chain,
      row.hashId = hashToHashId tx.1 → row.fee = feeIn (txsOf network chain) tx.2 :=
    fun row hrow tx htx hid => hvalid.tx_row_fee hsub hright hrow htx hid
  have htx := hexecuted.tx
  cases hmode : mode.isBulk with
  | true =>
      rw [TxExecuted, if_pos hmode] at htx
      have hafter := insertRows_raise htx
      rw [hafter]
      constructor
      · intro tx hmem
        rw [txsOf_append] at hmem
        obtain hold | hmem := List.mem_append.1 hmem
        · obtain ⟨row, hrow, hid⟩ := h.txs tx hold
          exact ⟨row, List.mem_append_left _ hrow, hid⟩
        · obtain ⟨row, hrow, hid⟩ := exists_tx_row inputsUtxoMap hmem
          exact ⟨row, List.mem_append_right _ hrow, hid⟩
      · intro row hmem
        obtain hold | hrow := List.mem_append.1 hmem
        · exact h.fees row hold
        · exact hnew row hrow
  | false =>
      rw [TxExecuted, hmode] at htx
      obtain ⟨hafter, hschema⟩ := htx
      rw [hafter]
      constructor
      · intro tx hmem
        have hkey : hashToHashId tx.1 ∈ db.tx.map (·.hashId) ∨
            hashToHashId tx.1 ∈ (rowsOf network inputsUtxoMap blocks).tx.map (·.hashId) := by
          rw [txsOf_append] at hmem
          obtain hold | hmem := List.mem_append.1 hmem
          · obtain ⟨row, hrow, hid⟩ := h.txs tx hold
            exact .inl (List.mem_map.2 ⟨row, hrow, hid⟩)
          · obtain ⟨row, hrow, hid⟩ := exists_tx_row inputsUtxoMap hmem
            exact .inr (List.mem_map.2 ⟨row, hrow, hid⟩)
        by_cases hrows : (rowsOf network inputsUtxoMap blocks).tx = []
        · simpa [hrows, upsertRows] using hkey
        · rw [hschema hrows]
          exact List.mem_map.1 ((mem_map_key_upsertRows mergesBy_hashId).2 hkey)
      · exact forall_upsertRows h.fees hnew fun new old hold => hold

theorem executed (h : Stored network chain done db) (hvalid : Valid network chain)
    (hsub : blocks ⊆ chain)
    (hright : RightFor (txsOf network chain) (spent (txsOf network blocks)) inputsUtxoMap)
    (hexecuted : Executed mode (rowsOf network inputsUtxoMap blocks) db after) :
    Stored network chain (done ++ blocks) after :=
  ⟨(h.executed_outputs hvalid hsub hexecuted).1, (h.executed_outputs hvalid hsub hexecuted).2,
    (h.executed_txs hvalid hsub hright hexecuted).1,
    (h.executed_txs hvalid hsub hright hexecuted).2⟩

end Stored

end BitcoinIndexer.Fees
