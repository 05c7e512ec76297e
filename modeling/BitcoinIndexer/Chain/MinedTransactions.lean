import BitcoinIndexer.Chain.Guarantees

/-!
# Transactions of the chain

Which blocks `block_tx` names for a transaction, and what a batch does to the rows of
`tx`: a row it names gets the height of its block, every other row stays.
-/

namespace BitcoinIndexer.MinedTransactions

open BitcoinIndexer.Types
open BitcoinIndexer.Tables
open BitcoinIndexer.Formatter
open BitcoinIndexer.KeyedTable
open BitcoinIndexer.ReferenceChain
open BitcoinIndexer.StoredRows
open BitcoinIndexer.Representation
open BitcoinIndexer.Execution
open BitcoinIndexer.ChainState
open BitcoinIndexer.Grounding

def txHashIds (network : Network) (block : BlockData) : List HashId :=
  (block.txs network).map fun tx => hashToHashId tx.1

/-- The txids of some blocks. -/
def txidsOf (given : Set BlockData) (network : Network) : Set Txid :=
  {txid | ∃ block ∈ given, ∃ tx ∈ block.txs network, tx.1 = txid}

/-- Ids determine transactions, and a transaction is in one block of a chain at most. -/
structure OncePerChain (given : Set BlockData) (network : Network) : Prop where
  injective : Set.InjOn hashToHashId (txidsOf given network)
  once : ∀ chain, (∀ block ∈ chain, block ∈ given) → Extends [] chain →
    ∀ left ∈ chain, ∀ right ∈ chain, ∀ txid, txid ∈ (left.txs network).map (·.1) →
      txid ∈ (right.txs network).map (·.1) → left = right

variable {given : Set BlockData} {network : Network} {S : Setting} {t : BlockTree}
variable {db after : Db} {mode : Mode} {inputsUtxoMap : UtxoDetailsMap}
variable {blocks : List BlockData}

theorem OncePerChain.block_eq (h : OncePerChain given network) {chain : List BlockData}
    (hgiven : ∀ block ∈ chain, block ∈ given) (hlinked : Extends [] chain)
    {left right : BlockData} (hleft : left ∈ chain) (hright : right ∈ chain) {hashId : HashId}
    (hinLeft : hashId ∈ txHashIds network left) (hinRight : hashId ∈ txHashIds network right) :
    left = right := by
  obtain ⟨leftTx, hleftTx, rfl⟩ := List.mem_map.1 hinLeft
  obtain ⟨rightTx, hrightTx, heq⟩ := List.mem_map.1 hinRight
  have htxid : rightTx.1 = leftTx.1 := h.injective ⟨right, hgiven right hright, rightTx, hrightTx, rfl⟩
    ⟨left, hgiven left hleft, leftTx, hleftTx, rfl⟩ heq
  exact h.once chain hgiven hlinked left hleft right hright leftTx.1
    (List.mem_map_of_mem hleftTx) (htxid ▸ List.mem_map_of_mem hrightTx)

/-! ## The links between blocks and transactions -/

/-- `block_tx` holds the transactions of the known blocks. -/
def Linked (network : Network) (known : List BlockData) (db : Db) : Prop :=
  ∀ link, link ∈ db.blockTx ↔ ∃ block ∈ known, link.blockHashId = block.hashId ∧
    link.txHashId ∈ txHashIds network block

theorem mem_blockTx_rows {link : BlockTxRow} :
    link ∈ (rowsOf network inputsUtxoMap blocks).blockTx ↔ ∃ block ∈ blocks,
      link.blockHashId = block.hashId ∧ link.txHashId ∈ txHashIds network block := by
  simp only [rowsOf, rowsBy, List.mem_flatMap, List.mem_map, txHashIds]
  constructor
  · rintro ⟨block, hblock, tx, htx, rfl⟩
    exact ⟨block, hblock, rfl, tx, htx, rfl⟩
  · rintro ⟨block, hblock, hhash, tx, htx, hid⟩
    refine ⟨block, hblock, tx, htx, ?_⟩
    cases link
    simp_all [BlockTxFormatter.row, BlockData.hashId]

theorem Linked.executed {known : List BlockData} (h : Linked network known db)
    (hexecuted : Executed mode (rowsOf network inputsUtxoMap blocks) db after) :
    Linked network (known ++ blocks) after := by
  intro link
  have hrows := hexecuted.blockTx
  constructor
  · intro hmem
    obtain hold | hnew := mem_of_insertRows hrows hmem
    · obtain ⟨block, hblock, hlink⟩ := (h link).1 hold
      exact ⟨block, List.mem_append_left _ hblock, hlink⟩
    · obtain ⟨block, hblock, hlink⟩ := mem_blockTx_rows.1 hnew
      exact ⟨block, List.mem_append_right _ hblock, hlink⟩
  · rintro ⟨block, hblock, hlink⟩
    obtain hold | hnew := List.mem_append.1 hblock
    · exact (initial_of_insertRows hrows).subset ((h link).2 ⟨block, hold, hlink⟩)
    · obtain hstored | ⟨other, hother, hclash⟩ :=
        stored_of_insertRows hrows (mem_blockTx_rows.2 ⟨block, hnew, hlink⟩)
      · exact hstored
      · -- the whole row is its key
        have hsame : link = other := by
          simp only [blockTxClash, decide_eq_true_eq] at hclash
          cases link
          cases other
          simp_all
        exact hsame ▸ hother

/-! ## The rows of a batch -/

theorem mem_tx_rows {row : TxRow} (hmem : row ∈ (rowsOf network inputsUtxoMap blocks).tx) :
    ∃ block ∈ blocks, row.currentHeight = some block.height ∧
      row.hashId ∈ txHashIds network block := by
  simp only [rowsOf, rowsBy, List.mem_flatMap, List.mem_map] at hmem
  obtain ⟨block, hblock, tx, htx, rfl⟩ := hmem
  exact ⟨block, hblock, rfl, List.mem_map.2 ⟨tx, htx, rfl⟩⟩

theorem mem_tx_hashIds {hashId : HashId} :
    hashId ∈ (rowsOf network inputsUtxoMap blocks).tx.map (·.hashId) ↔
      ∃ block ∈ blocks, hashId ∈ txHashIds network block := by
  simp only [rowsOf, rowsBy, List.mem_map, List.mem_flatMap, txHashIds]
  constructor
  · rintro ⟨_, ⟨block, hblock, tx, htx, rfl⟩, rfl⟩
    exact ⟨block, hblock, tx, htx, rfl⟩
  · rintro ⟨block, hblock, tx, htx, rfl⟩
    exact ⟨_, ⟨block, hblock, tx, htx, rfl⟩, rfl⟩

/-- Where the ids stay distinct, a row is one the batch does not name, or it has the
height of its block. -/
theorem mem_tx_executed
    (hexecuted : Executed mode (rowsOf network inputsUtxoMap blocks) db after)
    (hnodup : (after.tx.map (·.hashId)).Nodup) {row : TxRow} (hmem : row ∈ after.tx) :
    row ∈ db.tx ∧ (∀ block ∈ blocks, row.hashId ∉ txHashIds network block) ∨
      ∃ block ∈ blocks, row.currentHeight = some block.height ∧
        row.hashId ∈ txHashIds network block := by
  have htx := hexecuted.tx
  cases hmode : mode.isBulk with
  | true =>
      rw [TxExecuted, if_pos hmode] at htx
      have hafter := insertRows_raise htx
      rw [hafter] at hmem hnodup
      rw [List.map_append, List.nodup_append] at hnodup
      obtain hold | hnew := List.mem_append.1 hmem
      · refine .inl ⟨hold, fun block hblock hin => ?_⟩
        exact hnodup.2.2 row.hashId (List.mem_map_of_mem hold) row.hashId
          (mem_tx_hashIds.2 ⟨block, hblock, hin⟩) rfl
      · exact .inr (mem_tx_rows hnew)
  | false =>
      rw [TxExecuted, if_neg (by simp [hmode])] at htx
      obtain ⟨hafter, hnormal⟩ := htx
      by_cases hrows : (rowsOf network inputsUtxoMap blocks).tx = []
      · rw [hafter, hrows] at hmem
        refine .inl ⟨hmem, fun block hblock hin => ?_⟩
        have hnamed : row.hashId ∈ (rowsOf network inputsUtxoMap blocks).tx.map (·.hashId) :=
          mem_tx_hashIds.2 ⟨block, hblock, hin⟩
        simp [hrows] at hnamed
      · rw [hafter, hnormal hrows] at hmem
        obtain ⟨hold, hout⟩ | ⟨new, hnew, hkey, hfrom⟩ := mem_upsertRows mergesBy_hashId hmem
        · exact .inl ⟨hold, fun block hblock hin => hout (mem_tx_hashIds.2 ⟨block, hblock, hin⟩)⟩
        · obtain ⟨block, hblock, hheight, hin⟩ := mem_tx_rows hnew
          refine .inr ⟨block, hblock, ?_, hkey ▸ hin⟩
          obtain rfl | ⟨old, rfl⟩ := hfrom
          · exact hheight
          · exact hheight

/-- The ids of the rows before are among the first after. -/
theorem initial_tx_executed
    (hexecuted : Executed mode (rowsOf network inputsUtxoMap blocks) db after) :
    db.tx.map (·.hashId) <+: after.tx.map (·.hashId) := by
  have htx := hexecuted.tx
  cases hmode : mode.isBulk with
  | true =>
      rw [TxExecuted, if_pos hmode] at htx
      exact (initial_of_insertRows htx).map _
  | false =>
      rw [TxExecuted, if_neg (by simp [hmode])] at htx
      obtain ⟨hafter, hnormal⟩ := htx
      by_cases hrows : (rowsOf network inputsUtxoMap blocks).tx = []
      · rw [hafter, hrows]
        exact List.prefix_rfl
      · rw [hafter, hnormal hrows]
        exact initial_of_upsertRows mergesBy_hashId

/-- In the normal schema ids stay distinct. -/
theorem nodup_tx_executed
    (hexecuted : Executed mode (rowsOf network inputsUtxoMap blocks) db after)
    (hschema : db.schema = .normal) (hnodup : (db.tx.map (·.hashId)).Nodup) :
    (after.tx.map (·.hashId)).Nodup := by
  have htx := hexecuted.tx
  rw [TxExecuted, hschema] at htx
  cases hmode : mode.isBulk with
  | true =>
      rw [if_pos hmode] at htx
      exact nodup_insertRows mergesBy_hashId.same_iff hnodup htx
  | false =>
      rw [if_neg (by simp [hmode])] at htx
      rw [htx.1]
      exact nodup_upsertRows mergesBy_hashId hnodup

end BitcoinIndexer.MinedTransactions
