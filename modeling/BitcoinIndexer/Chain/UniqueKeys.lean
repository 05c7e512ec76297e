import BitcoinIndexer.Chain.CurrentHeight

/-!
# The keys that bulk mode does without

In bulk mode nothing but the blocks that are inserted keeps the rows of `tx`, `output`,
`input` and `block_tx` distinct.  They stay distinct where a formatter in a bulk mode is
given no transaction that is already stored.
-/

namespace BitcoinIndexer.UniqueKeys

open BitcoinIndexer.Types
open BitcoinIndexer.Tables
open BitcoinIndexer.Formatter
open BitcoinIndexer.KeyedTable
open BitcoinIndexer.ReferenceChain
open BitcoinIndexer.StoredRows
open BitcoinIndexer.Representation
open BitcoinIndexer.Execution
open BitcoinIndexer.Worker
open BitcoinIndexer.Store
open BitcoinIndexer.ChainState
open BitcoinIndexer.Grounding
open BitcoinIndexer.Following
open BitcoinIndexer.Opening
open BitcoinIndexer.Schedules
open BitcoinIndexer.Guarantees
open BitcoinIndexer.MinedTransactions
open BitcoinIndexer.CurrentHeight
open BitcoinIndexer.Interleaving

/-- What a node promises about transactions: none is twice on a chain, and none spends an
output twice. -/
structure Distinct (given : Set BlockData) (network : Network) : Prop extends
    OncePerChain given network where
  txids : ∀ block ∈ given, ((block.txs network).map (·.1)).Nodup
  inputs : ∀ block ∈ given, ∀ tx ∈ block.data.txdata,
    (tx.input.map fun input =>
      (hashToHashId input.previousOutput.txid, input.previousOutput.vout)).Nodup

def outputKey (row : OutputRow) : HashId × ℕ := (row.txHashId, row.txIdx)

def inputKey (row : InputRow) : HashId × ℕ × HashId :=
  (row.outputTxHashId, row.outputTxIdx, row.txHashId)

def blockTxKey (row : BlockTxRow) : HashId × HashId := (row.blockHashId, row.txHashId)

variable {given : Set BlockData} {network : Network} {t : BlockTree}
variable {db after : Db} {mode : Mode} {inputsUtxoMap : UtxoDetailsMap}
variable {chain blocks known : List BlockData}

theorem outputClash_key (schema : Mode) (new old : OutputRow)
    (h : outputClash schema new old = true) : outputKey new = outputKey old := by
  simp_all [outputClash, outputKey]

theorem inputClash_key (schema : Mode) (new old : InputRow)
    (h : inputClash schema new old = true) : inputKey new = inputKey old := by
  simp_all [inputClash, inputKey]

theorem blockTxClash_key (schema : Mode) (new old : BlockTxRow)
    (h : blockTxClash schema new old = true) : blockTxKey new = blockTxKey old := by
  simp_all [blockTxClash, blockTxKey]

theorem txClash_key (schema : Mode) (new old : TxRow) (h : txClash schema new old = true) :
    new.hashId = old.hashId := by
  simp_all [txClash]

theorem outputClash_normal (new old : OutputRow) :
    outputClash .normal new old = true ↔ outputKey new = outputKey old := by
  simp [outputClash, outputKey]

theorem inputClash_normal (new old : InputRow) :
    inputClash .normal new old = true ↔ inputKey new = inputKey old := by
  simp [inputClash, inputKey]

theorem blockTxClash_normal (new old : BlockTxRow) :
    blockTxClash .normal new old = true ↔ blockTxKey new = blockTxKey old := by
  simp [blockTxClash, blockTxKey]

/-! ## The rows of new blocks -/

theorem txHashIds_nodup (h : Distinct given network) {block : BlockData} (hgiven : block ∈ given) :
    (txHashIds network block).Nodup := by
  have hmap : txHashIds network block = ((block.txs network).map (·.1)).map hashToHashId := by
    rw [List.map_map]
    rfl
  rw [hmap]
  apply (h.txids block hgiven).map_on
  intro left hleft right hright heq
  obtain ⟨leftTx, hleftTx, rfl⟩ := List.mem_map.1 hleft
  obtain ⟨rightTx, hrightTx, rfl⟩ := List.mem_map.1 hright
  exact h.injective ⟨block, hgiven, leftTx, hleftTx, rfl⟩ ⟨block, hgiven, rightTx, hrightTx, rfl⟩ heq

/-- The transactions of an extension of a chain have different ids. -/
theorem flatMap_txHashIds_nodup (h : Distinct given network)
    (hgiven : ∀ block ∈ chain ++ blocks, block ∈ given) (hlinked : Extends [] (chain ++ blocks)) :
    (blocks.flatMap (txHashIds network)).Nodup := by
  rw [List.nodup_flatMap]
  refine ⟨fun block hmem => txHashIds_nodup h (hgiven block (List.mem_append_right _ hmem)), ?_⟩
  apply (List.nodup_append.1 hlinked.nodup).2.1.imp_of_mem
  intro left right hleft hright hne hashId hinLeft hinRight
  exact hne (h.block_eq hgiven hlinked (List.mem_append_right _ hleft)
    (List.mem_append_right _ hright) hinLeft hinRight)

theorem map_tx_rows : (rowsOf network inputsUtxoMap blocks).tx.map (·.hashId) =
    blocks.flatMap (txHashIds network) := by
  rw [rowsOf, rowsBy, List.map_flatMap]
  congr 1
  funext block
  rw [List.map_map]
  rfl

theorem output_rows : (rowsOf network inputsUtxoMap blocks).output =
    (blocks.flatMap (BlockData.txs · network)).flatMap (outputRows network) := by
  rw [List.flatMap_assoc]
  rfl

theorem input_rows : (rowsOf network inputsUtxoMap blocks).input =
    (blocks.flatMap (BlockData.txs · network)).flatMap inputRows := by
  rw [List.flatMap_assoc]
  rfl

theorem map_txs_hashId : (blocks.flatMap (BlockData.txs · network)).map
    (fun tx => hashToHashId tx.1) = blocks.flatMap (txHashIds network) := by
  rw [List.map_flatMap]
  rfl

theorem owner_output {tx : Txid × Transaction} {row : OutputRow}
    (hmem : row ∈ outputRows network tx) : row.txHashId = hashToHashId tx.1 := by
  obtain ⟨output, -, rfl⟩ := List.mem_map.1 hmem
  rfl

theorem owner_input {tx : Txid × Transaction} {row : InputRow} (hmem : row ∈ inputRows tx) :
    row.txHashId = hashToHashId tx.1 := by
  rw [inputRows] at hmem
  split_ifs at hmem with hcoinbase
  · simp at hmem
  · obtain ⟨input, -, rfl⟩ := List.mem_map.1 hmem
    rfl

theorem output_nodup (hids : (blocks.flatMap (txHashIds network)).Nodup) :
    ((rowsOf network inputsUtxoMap blocks).output.map outputKey).Nodup := by
  rw [output_rows]
  apply nodup_of_owners (fun tx => hashToHashId tx.1) Prod.fst
  · intro tx _ row hmem
    exact owner_output hmem
  · rwa [map_txs_hashId]
  · intro tx _
    have hindices : (tx.2.output.zipIdx.map fun output => output.2).Nodup := by
      rw [List.zipIdx_map_snd]
      exact List.nodup_range'
    rw [outputRows, List.map_map]
    have hpairs := hindices.map (f := fun index => (hashToHashId tx.1, index))
      fun left right heq => (Prod.mk.inj heq).2
    rwa [List.map_map] at hpairs

theorem input_nodup (h : Distinct given network) (hgiven : ∀ block ∈ blocks, block ∈ given)
    (hids : (blocks.flatMap (txHashIds network)).Nodup) :
    ((rowsOf network inputsUtxoMap blocks).input.map inputKey).Nodup := by
  rw [input_rows]
  apply nodup_of_owners (fun tx => hashToHashId tx.1) fun key => key.2.2
  · intro tx _ row hmem
    exact owner_input hmem
  · rwa [map_txs_hashId]
  · intro tx hmem
    obtain ⟨block, hblock, htx⟩ := List.mem_flatMap.1 hmem
    obtain ⟨transaction, htransaction, rfl⟩ := List.mem_map.1 htx
    rw [inputRows]
    split_ifs with hcoinbase
    · exact List.nodup_nil
    · have hkeys := (h.inputs block (hgiven block hblock) transaction htransaction).map
        (f := fun point => (point.1, point.2,
          hashToHashId (calculateTxIdWithWorkarounds block transaction network)))
        fun left right heq => by
          obtain ⟨hfst, hsnd⟩ := Prod.mk.inj heq
          exact Prod.ext hfst (Prod.mk.inj hsnd).1
      rw [List.map_map] at hkeys ⊢
      exact hkeys

theorem blockTx_nodup (h : Distinct given network) (hgiven : ∀ block ∈ blocks, block ∈ given)
    (hdistinct : (blocks.map BlockData.hashId).Nodup) :
    ((rowsOf network inputsUtxoMap blocks).blockTx.map blockTxKey).Nodup := by
  rw [rowsOf, rowsBy]
  apply nodup_of_owners BlockData.hashId Prod.fst
  · intro block _ row hmem
    obtain ⟨tx, -, rfl⟩ := List.mem_map.1 hmem
    rfl
  · exact hdistinct
  · intro block hblock
    have hkeys := (txHashIds_nodup h (hgiven block hblock)).map
      (f := fun hashId => (block.hashId, hashId)) fun left right heq => (Prod.mk.inj heq).2
    rw [txHashIds, List.map_map] at hkeys
    rw [List.map_map]
    exact hkeys

/-! ## What a committed state keeps -/

/-- Outputs and inputs are those of stored transactions. -/
structure Owned (db : Db) : Prop where
  output : ∀ row ∈ db.output, row.txHashId ∈ db.tx.map (·.hashId)
  input : ∀ row ∈ db.input, row.txHashId ∈ db.tx.map (·.hashId)

structure Unique (network : Network) (known : List BlockData) (db : Db) : Prop where
  links : Linked network known db
  keys : keysUnique .normal db
  owned : Owned db

/-- New blocks meet a state whose keys are unique; for a formatter in a bulk mode their
transactions are new, too. -/
structure Arriving (given : Set BlockData) (network : Network) (known chain : List BlockData)
    (db : Db) (mode : Mode) (blocks : List BlockData) : Prop where
  promised : Distinct given network
  before : Unique network known db
  distinct : ((known ++ blocks).map BlockData.hashId).Nodup
  given : ∀ block ∈ chain ++ blocks, block ∈ given
  linked : Extends [] (chain ++ blocks)
  unstored : mode.isBulk = true → ∀ block ∈ blocks, ∀ hashId ∈ txHashIds network block,
    hashId ∉ db.tx.map (·.hashId)

theorem mem_owned_rows {hashId : HashId} :
    hashId ∈ (rowsOf network inputsUtxoMap blocks).tx.map (·.hashId) ↔
      ∃ tx ∈ blocks.flatMap (BlockData.txs · network), hashToHashId tx.1 = hashId := by
  rw [map_tx_rows, ← map_txs_hashId, List.mem_map]

theorem output_rows_owned {row : OutputRow}
    (hmem : row ∈ (rowsOf network inputsUtxoMap blocks).output) :
    row.txHashId ∈ (rowsOf network inputsUtxoMap blocks).tx.map (·.hashId) := by
  rw [output_rows] at hmem
  obtain ⟨tx, htx, hrow⟩ := List.mem_flatMap.1 hmem
  exact mem_owned_rows.2 ⟨tx, htx, (owner_output hrow).symm⟩

theorem input_rows_owned {row : InputRow}
    (hmem : row ∈ (rowsOf network inputsUtxoMap blocks).input) :
    row.txHashId ∈ (rowsOf network inputsUtxoMap blocks).tx.map (·.hashId) := by
  rw [input_rows] at hmem
  obtain ⟨tx, htx, hrow⟩ := List.mem_flatMap.1 hmem
  exact mem_owned_rows.2 ⟨tx, htx, (owner_input hrow).symm⟩

/-- Without transactions there are no other rows. -/
theorem rows_nil (hrows : (rowsOf network inputsUtxoMap blocks).tx = []) :
    (rowsOf network inputsUtxoMap blocks).blockTx = [] ∧
      (rowsOf network inputsUtxoMap blocks).output = [] ∧
        (rowsOf network inputsUtxoMap blocks).input = [] := by
  refine ⟨?_, ?_, ?_⟩ <;> apply List.eq_nil_iff_forall_not_mem.2 <;> intro row hmem
  · obtain ⟨block, hblock, -, hin⟩ := mem_blockTx_rows.1 hmem
    have hnamed : row.txHashId ∈ (rowsOf network inputsUtxoMap blocks).tx.map (·.hashId) :=
      mem_tx_hashIds.2 ⟨block, hblock, hin⟩
    simp [hrows] at hnamed
  · simpa [hrows] using output_rows_owned hmem
  · simpa [hrows] using input_rows_owned hmem

theorem Arriving.blocks_given (h : Arriving given network known chain db mode blocks) :
    ∀ block ∈ blocks, block ∈ given :=
  fun block hmem => h.given block (List.mem_append_right _ hmem)

theorem Arriving.ids_nodup (h : Arriving given network known chain db mode blocks) :
    (blocks.flatMap (txHashIds network)).Nodup :=
  flatMap_txHashIds_nodup h.promised h.given h.linked

theorem Arriving.blockTx_nodup (h : Arriving given network known chain db mode blocks) :
    ((db.blockTx ++ (rowsOf network inputsUtxoMap blocks).blockTx).map blockTxKey).Nodup := by
  have hdistinct := h.distinct
  rw [List.map_append, List.nodup_append] at hdistinct
  apply nodup_append_of_owners Prod.fst {hashId | hashId ∈ known.map BlockData.hashId}
    (h.before.keys.2 rfl).1
  · exact UniqueKeys.blockTx_nodup h.promised h.blocks_given hdistinct.2.1
  · intro row hmem
    obtain ⟨block, hblock, hhash, -⟩ := (h.before.links row).1 hmem
    exact List.mem_map.2 ⟨block, hblock, hhash.symm⟩
  · intro row hmem hknown
    obtain ⟨block, hblock, hhash, -⟩ := mem_blockTx_rows.1 hmem
    exact hdistinct.2.2 row.blockHashId hknown row.blockHashId
      (List.mem_map.2 ⟨block, hblock, hhash.symm⟩) rfl

/-- In a bulk mode the ids of the rows are new. -/
theorem Arriving.unstored_rows (h : Arriving given network known chain db mode blocks)
    (hbulk : mode.isBulk = true) :
    ∀ hashId ∈ (rowsOf network inputsUtxoMap blocks).tx.map (·.hashId),
      hashId ∉ db.tx.map (·.hashId) := by
  intro hashId hmem
  obtain ⟨block, hblock, hin⟩ := mem_tx_hashIds.1 hmem
  exact h.unstored hbulk block hblock hashId hin

theorem Arriving.tx_nodup (h : Arriving given network known chain db mode blocks)
    (hbulk : mode.isBulk = true) :
    ((db.tx ++ (rowsOf network inputsUtxoMap blocks).tx).map (·.hashId)).Nodup := by
  apply nodup_append_of_owners id {hashId | hashId ∈ db.tx.map (·.hashId)} (h.before.keys.2 rfl).2.1
  · rw [map_tx_rows]
    exact h.ids_nodup
  · exact fun row hmem => List.mem_map_of_mem hmem
  · exact fun row hmem => h.unstored_rows hbulk row.hashId (List.mem_map_of_mem hmem)

theorem Arriving.output_nodup (h : Arriving given network known chain db mode blocks)
    (hbulk : mode.isBulk = true) :
    ((db.output ++ (rowsOf network inputsUtxoMap blocks).output).map outputKey).Nodup := by
  apply nodup_append_of_owners Prod.fst {hashId | hashId ∈ db.tx.map (·.hashId)}
    (h.before.keys.1 (by simp))
  · exact UniqueKeys.output_nodup h.ids_nodup
  · exact h.before.owned.output
  · exact fun row hmem => h.unstored_rows hbulk _ (output_rows_owned hmem)

theorem Arriving.input_nodup (h : Arriving given network known chain db mode blocks)
    (hbulk : mode.isBulk = true) :
    ((db.input ++ (rowsOf network inputsUtxoMap blocks).input).map inputKey).Nodup := by
  apply nodup_append_of_owners (fun key => key.2.2) {hashId | hashId ∈ db.tx.map (·.hashId)}
    (h.before.keys.2 rfl).2.2
  · exact UniqueKeys.input_nodup h.promised h.blocks_given h.ids_nodup
  · exact h.before.owned.input
  · exact fun row hmem => h.unstored_rows hbulk _ (input_rows_owned hmem)

/-- No key is violated, whatever the schema. -/
theorem Arriving.insertable (h : Arriving given network known chain db mode blocks)
    (hshows : Shows known chain db) :
    Insertable mode (rowsOf network inputsUtxoMap blocks) db := by
  have hblock : Keyed blockClash (db.block ++ blocks.map BlockFormatter.row) := by
    rw [hshows.rows, rows_append h.distinct]
    exact keyed_rows h.distinct h.linked
  have hsome : ∀ {ρ : Type} {clash : ρ → ρ → Bool} {table rows : List ρ},
      (mode.isBulk = true → Keyed clash (table ++ rows)) →
        (insertRows clash (skips mode) table rows).isSome := by
    intro ρ clash table rows hkeyed
    cases hmode : mode.isBulk with
    | true => simp [insertRows_of_keyed (hkeyed hmode)]
    | false => simpa [skips, hmode] using insertRows_skip_isSome table rows
  exact
    { block := hsome fun _ => hblock
      blockTx := hsome fun _ => keyed_of_nodup (blockTxClash_key db.schema) h.blockTx_nodup
      tx := fun hbulk => by
        simp [insertRows_of_keyed (keyed_of_nodup (txClash_key db.schema) (h.tx_nodup hbulk))]
      output := hsome fun hbulk =>
        keyed_of_nodup (outputClash_key db.schema) (h.output_nodup hbulk)
      input := hsome fun hbulk => keyed_of_nodup (inputClash_key db.schema) (h.input_nodup hbulk) }

/-- What a formatter in a bulk mode has written. -/
theorem Arriving.unique_bulk (h : Arriving given network known chain db mode blocks)
    (hbulk : mode.isBulk = true)
    (hexecuted : Executed mode (rowsOf network inputsUtxoMap blocks) db after) :
    keysUnique .normal after ∧ Owned after := by
  have hskips : skips mode = false := by simp [skips, hbulk]
  have htx := hexecuted.tx
  rw [TxExecuted, if_pos hbulk] at htx
  replace htx := insertRows_raise htx
  have hblockTx := insertRows_raise (hskips ▸ hexecuted.blockTx)
  have houtput := insertRows_raise (hskips ▸ hexecuted.output)
  have hinput := insertRows_raise (hskips ▸ hexecuted.input)
  refine ⟨⟨fun _ => ?_, fun _ => ⟨?_, ?_, ?_⟩⟩, ⟨?_, ?_⟩⟩
  · rw [houtput]
    exact h.output_nodup hbulk
  · rw [hblockTx]
    exact h.blockTx_nodup
  · rw [htx]
    exact h.tx_nodup hbulk
  · rw [hinput]
    exact h.input_nodup hbulk
  · rw [houtput, htx, List.map_append]
    intro row hmem
    obtain hold | hnew := List.mem_append.1 hmem
    · exact List.mem_append_left _ (h.before.owned.output row hold)
    · exact List.mem_append_right _ (output_rows_owned hnew)
  · rw [hinput, htx, List.map_append]
    intro row hmem
    obtain hold | hnew := List.mem_append.1 hmem
    · exact List.mem_append_left _ (h.before.owned.input row hold)
    · exact List.mem_append_right _ (input_rows_owned hnew)

/-- The normal schema keeps its keys. -/
theorem keysUnique_executed (hexecuted : Executed mode (rowsOf network inputsUtxoMap blocks) db after)
    (hschema : db.schema = .normal) (h : keysUnique .normal db) : keysUnique .normal after := by
  have hblockTx := hexecuted.blockTx
  have houtput := hexecuted.output
  have hinput := hexecuted.input
  rw [hschema] at hblockTx houtput hinput
  refine ⟨fun _ => ?_, fun _ => ⟨?_, ?_, ?_⟩⟩
  · exact nodup_insertRows outputClash_normal (h.1 (by simp)) houtput
  · exact nodup_insertRows blockTxClash_normal (h.2 rfl).1 hblockTx
  · exact nodup_tx_executed hexecuted hschema (h.2 rfl).2.1
  · exact nodup_insertRows inputClash_normal (h.2 rfl).2.2 hinput

/-- In normal mode the keys are there, or there are no transactions to write. -/
theorem Arriving.unique_normal (h : Arriving given network known chain db mode blocks)
    (hnormal : mode.isBulk = false)
    (hexecuted : Executed mode (rowsOf network inputsUtxoMap blocks) db after) :
    keysUnique .normal after ∧ Owned after := by
  have htx := hexecuted.tx
  rw [TxExecuted, if_neg (by simp [hnormal])] at htx
  have hids : ∀ {hashId : HashId}, hashId ∈ db.tx.map (·.hashId) ∨
      hashId ∈ (rowsOf network inputsUtxoMap blocks).tx.map (·.hashId) →
        hashId ∈ after.tx.map (·.hashId) := by
    intro hashId hmem
    by_cases hrows : (rowsOf network inputsUtxoMap blocks).tx = []
    · rw [hrows] at hmem
      have hold : hashId ∈ db.tx.map (·.hashId) := by simpa using hmem
      exact (initial_tx_executed hexecuted).subset hold
    · rw [htx.1, htx.2 hrows]
      exact (mem_map_key_upsertRows mergesBy_hashId).2 hmem
  refine ⟨?_, ⟨?_, ?_⟩⟩
  · by_cases hrows : (rowsOf network inputsUtxoMap blocks).tx = []
    · obtain ⟨hblockTxRows, houtputRows, hinputRows⟩ := rows_nil hrows
      have hblockTx := hexecuted.blockTx
      have houtput := hexecuted.output
      have hinput := hexecuted.input
      rw [hblockTxRows, insertRows, Option.some.injEq] at hblockTx
      rw [houtputRows, insertRows, Option.some.injEq] at houtput
      rw [hinputRows, insertRows, Option.some.injEq] at hinput
      have htable : after.tx = db.tx := by rw [htx.1, hrows]; rfl
      rw [keysUnique, ← hblockTx, ← houtput, ← hinput, htable]
      exact h.before.keys
    · exact keysUnique_executed hexecuted (htx.2 hrows) h.before.keys
  · intro row hmem
    obtain hold | hnew := mem_of_insertRows hexecuted.output hmem
    · exact hids (.inl (h.before.owned.output row hold))
    · exact hids (.inr (output_rows_owned hnew))
  · intro row hmem
    obtain hold | hnew := mem_of_insertRows hexecuted.input hmem
    · exact hids (.inl (h.before.owned.input row hold))
    · exact hids (.inr (input_rows_owned hnew))

theorem Arriving.unique (h : Arriving given network known chain db mode blocks)
    (hexecuted : Executed mode (rowsOf network inputsUtxoMap blocks) db after) :
    Unique network (known ++ blocks) after := by
  have hafter : keysUnique .normal after ∧ Owned after := by
    cases hmode : mode.isBulk with
    | true => exact h.unique_bulk hmode hexecuted
    | false => exact h.unique_normal hmode hexecuted
  exact ⟨h.before.links.executed hexecuted, hafter.1, hafter.2⟩

/-! ## Runs -/

/-- A formatter in a bulk mode is given no transaction that is already stored. -/
def Unstored (network : Network) (db : Db) : Commit → Prop
  | .batch mode blocks | .reorg mode _ _ blocks =>
      mode.isBulk = true → ∀ block ∈ blocks, ∀ hashId ∈ txHashIds network block,
        hashId ∉ db.tx.map (·.hashId)

instance (network : Network) (db : Db) (commit : Commit) :
    Decidable (Unstored network db commit) :=
  match commit with
  | .batch mode blocks | .reorg mode _ _ blocks =>
      decidable_of_iff (mode.isBulk = true → ∀ block ∈ blocks, ∀ hashId ∈ txHashIds network block,
        ∀ row ∈ db.tx, row.hashId ≠ hashId) (by simp [Unstored])

theorem arriving_batch (h : Distinct given network) (injective : Set.InjOn BlockData.hashId given)
    (hcommitted : Committed given network (Unstored network) t db)
    (hunique : Unique network t.known db) (hgiven : ∀ block ∈ blocks, block ∈ given)
    (hextends : Extends (idents t.chain) blocks)
    (hunstored : Unstored network db (.batch mode blocks)) :
    Arriving given network t.known t.chain db mode blocks where
  promised := h
  before := hunique
  distinct := BlockTree.distinct_append injective hcommitted.given hgiven hextends.nodup
    (BlockTree.fresh_of_extends hextends)
  given := by
    intro block hmem
    obtain hold | hnew := List.mem_append.1 hmem
    · exact hcommitted.given block (t.stored block hold)
    · exact hgiven block hnew
  linked := extends_append.2 ⟨t.linked, hextends⟩
  unstored := hunstored

/-- The statements of a reorg before its blocks leave the keys as they are. -/
theorem Unique.reorganized (h : Unique network known db) (height : BlockHeight)
    (revived : List BlockData) : Unique network known (reorganized height revived db) := by
  have hids : (ChainState.reorganized height revived db).tx.map (·.hashId) =
      db.tx.map (·.hashId) := map_hashId_reviveAll revived _
  obtain ⟨eventIdSeq, event, rows, tx, hframe⟩ := reorganized_frame height revived db
  rw [hframe] at hids ⊢
  refine ⟨h.links, ?_, ?_, ?_⟩
  · rw [keysUnique, hids]
    exact h.keys
  · rw [hids]
    exact h.owned.output
  · rw [hids]
    exact h.owned.input

theorem arriving_reorg (h : Distinct given network) (injective : Set.InjOn BlockData.hashId given)
    (hcommitted : Committed given network (Unstored network) t db)
    (hunique : Unique network t.known db) {height : BlockHeight} {revived new : List BlockData}
    (hgiven : ∀ block ∈ new, block ∈ given) (hfresh : ∀ block ∈ new, block ∉ t.known)
    (hrevived : ∀ block ∈ revived, block ∈ t.known)
    (hextends : Extends (idents (t.chain.take height)) (revived ++ new))
    (hunstored : Unstored network db (.reorg mode height revived new)) :
    Arriving given network t.known (t.chain.take height ++ revived)
      (reorganized height revived db) mode new where
  promised := h
  before := hunique.reorganized height revived
  distinct := BlockTree.distinct_append injective hcommitted.given hgiven
    (extends_append.1 hextends).2.nodup hfresh
  given := by
    intro block hmem
    rw [List.append_assoc, List.mem_append, List.mem_append] at hmem
    obtain hkept | hold | hnew := hmem
    · exact hcommitted.given block (t.stored block (List.mem_of_mem_take hkept))
    · exact hcommitted.given block (hrevived block hold)
    · exact hgiven block hnew
  linked := by
    rw [List.append_assoc]
    exact extends_append.2 ⟨t.linked.take height, hextends⟩
  unstored := by
    have hids : (reorganized height revived db).tx.map (·.hashId) = db.tx.map (·.hashId) :=
      map_hashId_reviveAll revived _
    rw [hids]
    exact hunstored

theorem unique (h : Distinct given network) (injective : Set.InjOn BlockData.hashId given)
    (hcommitted : Committed given network (Unstored network) t db) :
    Unique network t.known db := by
  induction hcommitted with
  | fresh bulkMode =>
      exact ⟨by simp [Linked, BlockTree.empty, Db.empty], by simp [keysUnique, Db.empty],
        by simp [Db.empty], by simp [Db.empty]⟩
  | batch mode inputsUtxoMap queries blocks hbefore hready hgiven hextends hP hqueries hexecute
      hknown hchain ih =>
      rw [hknown]
      exact (arriving_batch h injective hbefore ih hgiven hextends hP).unique
        (executed (saying_of_fmt (heights_nodup hextends) hqueries) hexecute)
  | @reorg t t' db after mode inputsUtxoMap queries height revived new hbefore hready hgiven
      hrevived hextends hP hqueries hexecute hknown hchain ih =>
      have hfresh : ∀ block ∈ new, block ∉ t.known := fun block hmem hin => by
        have hdistinct := t'.distinct.of_map
        rw [hknown] at hdistinct
        exact (List.nodup_append.1 hdistinct).2.2 block hin block hmem rfl
      rw [hknown]
      exact (arriving_reorg h injective hbefore ih hgiven hfresh hrevived hextends hP).unique
        (executed (saying_of_fmt (heights_nodup (extends_append.1 hextends).2) hqueries) hexecute)
  | schema mode hbefore hunique ih => exact ⟨ih.links, ih.keys, ih.owned.output, ih.owned.input⟩
  | bulkMode bulk hbefore ih => exact ⟨ih.links, ih.keys, ih.owned.output, ih.owned.input⟩
  | burn transaction hbefore ih => exact ⟨ih.links, ih.keys, ih.owned.output, ih.owned.input⟩

theorem keysUnique_of_normal (h : keysUnique .normal db) (mode : Mode) : keysUnique mode db :=
  ⟨fun _ => h.1 (by simp), fun _ => h.2 rfl⟩

/-- The keys of any mode can be added. -/
theorem setSchema_ok (h : keysUnique .normal db) (mode : Mode) :
    ∃ after, db.setSchema mode = .ok after := by
  cases mode with
  | freshBulk => exact ⟨_, rfl⟩
  | bulk => exact ⟨_, if_pos (keysUnique_of_normal h .bulk)⟩
  | normal => exact ⟨_, if_pos h⟩

/-- Runs in which no formatter in a bulk mode is given a stored transaction: no key is ever
violated. -/
def unstored (given : Set BlockData) (injective : Set.InjOn BlockData.hashId given)
    (network : Network) (h : Distinct given network) : Setting where
  given := given
  injective := injective
  network := network
  admits := Unstored network
  tolerates := (· ≠ .uniqueViolation)
  failed := by simp
  batch := by
    intro t db mode inputsUtxoMap queries blocks error hcommitted hgiven hextends hadmits hqueries
      herror heq
    have harriving := arriving_batch h injective hcommitted (unique h injective hcommitted) hgiven
      hextends hadmits
    exact executeAll_insertable (saying_of_fmt (heights_nodup hextends) hqueries)
      (harriving.insertable hcommitted.shows) (herror.trans (congrArg some heq))
  reorg := by
    intro t db mode inputsUtxoMap queries height revived new error hcommitted hgiven hfresh hrevived
      hextends hadmits hqueries herror heq
    have harriving := arriving_reorg h injective hcommitted (unique h injective hcommitted) hgiven
      hfresh hrevived hextends hadmits
    have hparts := extends_append.1 hextends
    exact executeAll_insertable (saying_of_fmt (heights_nodup hparts.2) hqueries)
      (harriving.insertable (shows_reorganized hcommitted.shows hrevived hparts.1))
      (herror.trans (congrArg some heq))
  schema := by
    intro t db mode error hcommitted herror
    obtain ⟨after, hok⟩ := setSchema_ok (unique h injective hcommitted).keys mode
    rw [hok] at herror
    exact absurd herror (by simp)

/-- No state holds a row twice, and no statement of the workers or of the caller, the
schema changes included, violates a key. -/
theorem keys_never_violated (given : Set BlockData) (injective : Set.InjOn BlockData.hashId given)
    (network : Network) (hdistinct : Distinct given network) (labels : List StoreLabel)
    (hfollows : (prefetched (unstored given injective network hdistinct)).follows system labels
      initial) :
    let c := system.run labels initial
    keysUnique .normal c.shared.db ∧ (∃ after, c.shared.db.setSchema .normal = .ok after) ∧
      (∀ p, c.shared.workers = some p → p.writer ≠ .exited (.err .uniqueViolation)) ∧
        c.prog ≠ .halt (.err .uniqueViolation) := by
  intro c
  have hkept := kept_run _ labels hfollows
  obtain ⟨t, hsettled⟩ := hkept.settled
  have hkeys := (unique hdistinct injective hsettled.committed).keys
  refine ⟨hkeys, setSchema_ok hkeys .normal, ?_, ?_⟩
  · intro p hworkers hexit
    exact hkept.blameless p hworkers .uniqueViolation hexit rfl
  · intro hhalted
    have hsafe := safe_run (unstored given injective network hdistinct) labels hfollows
    change SafeConfig _ _ _ _ _ c at hsafe
    rw [SafeConfig, hhalted] at hsafe
    cases hsafe.2 with
    | err _ htolerated => exact htolerated rfl

/-! ## The head reached after a reorg -/

theorem distinct_overtaken (coinbase : UInt8)
    (honce : OncePerChain {block | block ∈ overtaken coinbase} .bitcoin) :
    Distinct {block | block ∈ overtaken coinbase} .bitcoin := by
  have hsingle : ∀ block ∈ overtaken coinbase, ∃ byte, block.data.txdata = [coinbaseOf byte] := by
    intro block hmem
    simp only [overtaken, List.mem_cons, List.not_mem_nil, or_false] at hmem
    rcases hmem with rfl | rfl | rfl | rfl | rfl <;> exact ⟨_, rfl⟩
  refine ⟨honce, ?_, ?_⟩
  · intro block hmem
    obtain ⟨byte, hdata⟩ := hsingle block hmem
    simp [BlockData.txs, hdata]
  · intro block hmem tx htx
    obtain ⟨byte, hdata⟩ := hsingle block hmem
    rw [hdata] at htx
    rw [List.mem_singleton.1 htx]
    simp [coinbaseOf]

instance (coinbase : UInt8) (injective) (network : Network) (h) : DecidablePred (· ∈
    (unstored {block | block ∈ overtaken coinbase} injective network h).given) :=
  fun block => inferInstanceAs (Decidable (block ∈ overtaken coinbase))

instance (injective) (h : Distinct given network) (db : Db) (commit : Commit) :
    Decidable ((unstored given injective network h).admits db commit) :=
  inferInstanceAs (Decidable (Unstored network db commit))

theorem oncePerChain_overtaken_12 : OncePerChain {block | block ∈ overtaken 12} .bitcoin :=
  oncePerChain_of_heights (overtaken 12) (by decide)

theorem oncePerChain_overtaken_13 : OncePerChain {block | block ∈ overtaken 13} .bitcoin :=
  oncePerChain_of_heights (overtaken 13) (by decide)

/-- A reorg in bulk mode onto other transactions: the switch at height 3 succeeds. -/
theorem other_coinbase_switches :
    let c := system.run (overtaking 3 13) initial
    c.shared.db.schema = .normal ∧ keysUnique .normal c.shared.db := by
  have hfollows : (prefetched (unstored {block | block ∈ overtaken 13} (overtaken_injective 13)
      .bitcoin (distinct_overtaken 13 oncePerChain_overtaken_13))).follows system
        (overtaking 3 13) initial :=
    follows_of_check (overtaking 3 13) initial (by decide +kernel)
  have hkeys := keys_never_violated {block | block ∈ overtaken 13} (overtaken_injective 13) .bitcoin
    (distinct_overtaken 13 oncePerChain_overtaken_13) (overtaking 3 13) hfollows
  have hnormal : (system.run (overtaking 3 13) initial).shared.db.schema = .normal := by
    decide +kernel
  exact ⟨hnormal, hkeys.1⟩

/-- The new block at height 1 has the transaction of the old one: it is stored twice, so that
the keys of the normal schema cannot be added. -/
theorem same_coinbase_violates :
    ¬ ∀ (given : Set BlockData) (injective : Set.InjOn BlockData.hashId given) (network : Network),
      Distinct given network → ∀ labels : List StoreLabel,
        (prefetched (unrestricted given injective network)).follows system labels initial →
          keysUnique .normal (system.run labels initial).shared.db ∧
            (system.run labels initial).prog ≠ .halt (.err .uniqueViolation) := by
  intro h
  have hfollows : (prefetched (unrestricted {block | block ∈ overtaken 12} (overtaken_injective 12)
      .bitcoin)).follows system (overtaking 3 12) initial :=
    follows_of_check (overtaking 3 12) initial (by decide +kernel)
  have hkeys := h {block | block ∈ overtaken 12} (overtaken_injective 12) .bitcoin
    (distinct_overtaken 12 oncePerChain_overtaken_12) (overtaking 3 12) hfollows
  have hbroken : ¬ keysUnique .normal (system.run (overtaking 3 12) initial).shared.db := by
    decide +kernel
  exact hbroken hkeys.1

end BitcoinIndexer.UniqueKeys
