import BitcoinIndexer.Core.StepRelations
import BitcoinIndexer.Mempool.Variants

/-!
# Whoever writes a transaction first

The mempool indexer and the blocks write rows of the same transactions, each skipping what is
stored, but that a block sets the height.  After a block the rows of its transactions are
those it writes where there are none, except that what depends on the witnesses is that of
the variant that was written first; the mempool indexer changes nothing afterwards.
-/

namespace BitcoinIndexer.FirstWriter

open BitcoinIndexer.Types
open BitcoinIndexer.Tables
open BitcoinIndexer.Formatter
open BitcoinIndexer.UtxoCache
open BitcoinIndexer.KeyedTable
open BitcoinIndexer.StoredRows
open BitcoinIndexer.Execution
open BitcoinIndexer.UniqueKeys
open BitcoinIndexer.Interleaving
open BitcoinIndexer.Mempool
open BitcoinIndexer.MempoolDone (child say_stamped say_mempool)
open BitcoinIndexer.Variants
open BitcoinIndexer.Fees (NamedTx txsOf)

/-! ## The rows of a transaction -/

structure OwnRows where
  tx : List TxRow
  output : List OutputRow
  input : List InputRow
  deriving DecidableEq

def ownRows (hashId : HashId) (db : Db) : OwnRows where
  tx := db.tx.filter (·.hashId = hashId)
  output := db.output.filter (·.txHashId = hashId)
  input := db.input.filter (·.txHashId = hashId)

/-- The rows of `fresh`, with the time and what depends on the witnesses taken from the rows
that were stored before. -/
structure FirstKept (hashId : HashId) (before fresh after : Db) : Prop where
  tx : ∃ row, (ownRows hashId fresh).tx = [row] ∧
    (ownRows hashId after).tx = [{ row with
      mempoolTs := (firstOf (·.hashId) before.tx row).mempoolTs
      weight := (firstOf (·.hashId) before.tx row).weight }]
  output : (ownRows hashId after).output.Perm (ownRows hashId fresh).output
  input : (ownRows hashId after).input.Perm ((ownRows hashId fresh).input.map fun row =>
    { row with hasWitness := (firstOf inputKey before.input row).hasWitness })

/-- A database in the normal schema without rows of the transaction. -/
structure Bare (hashId : HashId) (db : Db) : Prop where
  schema : db.schema = .normal
  keys : keysUnique .normal db
  tx : hashId ∉ db.tx.map (·.hashId)
  output : ∀ row ∈ db.output, row.txHashId ≠ hashId
  input : ∀ row ∈ db.input, row.txHashId ≠ hashId

variable {seen : Set NamedTx} {network : Network} {tx : NamedTx} {blocks : List BlockData}
variable {queries : Queries} {before base after bare fresh db : Db}

/-! ## A block -/

section Block

variable (inputsUtxoMap : UtxoDetailsMap)
variable (h : Determined seen) (hmined : Mined seen network blocks)
variable (hrows : RowsWritten seen network blocks (rowsOf network inputsUtxoMap blocks))
variable (hfaithful : Faithful seen network base) (hschema : base.schema = .normal)
variable (hexecuted : Executed .normal (rowsOf network inputsUtxoMap blocks) base after)
variable (hfresh : Executed .normal (rowsOf network inputsUtxoMap blocks) bare fresh)
variable (hbare : Bare (hashToHashId tx.1) bare) (htx : tx ∈ txsOf network blocks)

include htx in
theorem mem_tx_rows : hashToHashId tx.1 ∈
    (rowsOf network inputsUtxoMap blocks).tx.map (·.hashId) := by
  obtain ⟨block, hblock, hin⟩ := List.mem_flatMap.1 htx
  rw [map_tx_rows]
  exact List.mem_flatMap.2 ⟨block, hblock, List.mem_map.2 ⟨tx, hin, rfl⟩⟩

include htx in
theorem outputRows_subset :
    outputRows network tx ⊆ (rowsOf network inputsUtxoMap blocks).output := by
  obtain ⟨block, hblock, hin⟩ := List.mem_flatMap.1 htx
  exact fun row hrow => List.mem_flatMap.2 ⟨block, hblock, List.mem_flatMap.2 ⟨tx, hin, hrow⟩⟩

include htx in
theorem inputRows_subset : inputRows tx ⊆ (rowsOf network inputsUtxoMap blocks).input := by
  obtain ⟨block, hblock, hin⟩ := List.mem_flatMap.1 htx
  exact fun row hrow => List.mem_flatMap.2 ⟨block, hblock, List.mem_flatMap.2 ⟨tx, hin, hrow⟩⟩

include htx in
theorem tx_rows_ne : (rowsOf network inputsUtxoMap blocks).tx ≠ [] := by
  intro hnil
  have hmem := mem_tx_rows inputsUtxoMap htx
  rw [hnil] at hmem
  exact absurd hmem List.not_mem_nil

include hexecuted in
theorem tx_upserted (hne : (rowsOf network inputsUtxoMap blocks).tx ≠ []) :
    base.schema = .normal ∧ after.tx = upsertRows (txClash .normal) updateCurrentHeight base.tx
      (rowsOf network inputsUtxoMap blocks).tx := by
  have htxExecuted := hexecuted.tx
  rw [TxExecuted, if_neg (by simp [Mode.isBulk])] at htxExecuted
  obtain ⟨hafter, hnormal⟩ := htxExecuted
  rw [hnormal hne] at hafter
  exact ⟨hnormal hne, hafter⟩

include h hmined hrows hfaithful hexecuted hfresh hbare htx in
theorem firstKept_tx : ∃ row, (ownRows (hashToHashId tx.1) fresh).tx = [row] ∧
    (ownRows (hashToHashId tx.1) after).tx = [{ row with
      mempoolTs := (firstOf (·.hashId) base.tx row).mempoolTs
      weight := (firstOf (·.hashId) base.tx row).weight }] := by
  have hne := tx_rows_ne inputsUtxoMap htx
  obtain ⟨hschema, hafter⟩ := tx_upserted inputsUtxoMap hexecuted hne
  obtain ⟨-, hfreshRows⟩ := tx_upserted inputsUtxoMap hfresh hne
  obtain ⟨first, hfirst, last, -, hfirstId, -, hmerged⟩ := exists_merged mergesBy_hashId
    (fun _ _ _ => rfl) (fun _ => rfl) (mem_tx_rows inputsUtxoMap htx)
  refine ⟨updateCurrentHeight last first, ?_, ?_⟩
  · rw [ownRows, hfreshRows, hmerged bare.tx (hbare.keys.2 rfl).2.1,
      firstOf_of_not_mem (hfirstId ▸ hbare.tx)]
  · have hnodup : (base.tx.map (·.hashId)).Nodup := ((hfaithful.keys hschema).2 rfl).2.1
    rw [ownRows, hafter, hmerged base.tx hnodup]
    by_cases hstored : hashToHashId tx.1 ∈ base.tx.map (·.hashId)
    · obtain ⟨old, hold, hid⟩ := List.mem_map.1 hstored
      have hkey : old.hashId = first.hashId := hid.trans hfirstId.symm
      have hkeyRow : old.hashId = (updateCurrentHeight last first).hashId := hkey
      rw [firstOf_of_mem hnodup hold hkey, firstOf_of_mem hnodup hold hkeyRow]
      obtain ⟨oldTx, holdTx, holdWritten⟩ := hfaithful.tx old hold
      obtain ⟨newTx, hnewTx, hnewWritten⟩ := hrows.tx first hfirst
      have hagree := holdWritten.agree h holdTx (hmined.txs newTx hnewTx) hnewWritten hkey
      rw [updateCurrentHeight, hagree]
      rfl
    · have hkeyRow : (updateCurrentHeight last first).hashId ∉ base.tx.map (·.hashId) :=
        hfirstId ▸ hstored
      rw [firstOf_of_not_mem (hfirstId ▸ hstored), firstOf_of_not_mem hkeyRow]

include h hmined hrows hfaithful hschema hexecuted hfresh hbare htx in
theorem firstKept_output : (ownRows (hashToHashId tx.1) after).output.Perm
    (ownRows (hashToHashId tx.1) fresh).output := by
  have hseen := hmined.txs tx htx
  -- whoever has written an output of the txid, it is one of the block's transaction
  have hown : ∀ {row : OutputRow} {other : NamedTx}, other ∈ seen → row ∈ outputRows network other →
      row.txHashId = hashToHashId tx.1 → row ∈ outputRows network tx := by
    intro row other hother hrow hid
    obtain ⟨htxid, hagree⟩ := h.of_hashId hother hseen ((owner_output hrow).symm.trans hid)
    rwa [outputRows_agree htxid hagree] at hrow
  have hnodup : (base.output.map outputKey).Nodup := (hfaithful.keys hschema).1 (by simp)
  have hperm := perm_insertRows_skip outputClash_normal (·.txHashId)
    (fun _ _ heq => (Prod.mk.inj heq).1) (hashToHashId tx.1) hnodup
    (hbare.keys.1 (by simp)) hbare.output
    (fun row hrow hid => by
      obtain ⟨other, hother, hin⟩ := hfaithful.output row hrow
      exact List.mem_map_of_mem
        (outputRows_subset inputsUtxoMap htx (hown hother hin hid)))
    (by rw [← hschema]; exact hexecuted.output) (by rw [← hbare.schema]; exact hfresh.output)
  refine hperm.trans (List.Perm.of_eq ?_)
  refine (List.map_congr_left ?_).trans (List.map_id _)
  intro row hmem
  obtain ⟨hrow, hid⟩ := List.mem_filter.1 hmem
  rw [decide_eq_true_eq] at hid
  have hin : row ∈ outputRows network tx := by
    obtain hold | hnew := mem_of_insertRows hfresh.output hrow
    · exact absurd hid (hbare.output row hold)
    · obtain ⟨other, hother, hin⟩ := hrows.output row hnew
      exact hown (hmined.txs other hother) hin hid
  by_cases hstored : outputKey row ∈ base.output.map outputKey
  · obtain ⟨old, hold, hkey⟩ := List.mem_map.1 hstored
    rw [firstOf_of_mem hnodup hold hkey]
    obtain ⟨other, hother, hother'⟩ := hfaithful.output old hold
    exact outputRows_key (hown hother hother' ((Prod.mk.inj hkey).1.trans hid)) hin hkey
  · exact firstOf_of_not_mem hstored

include h hmined hfaithful hschema hexecuted hfresh hbare htx in
theorem firstKept_input : (ownRows (hashToHashId tx.1) after).input.Perm
    ((ownRows (hashToHashId tx.1) fresh).input.map fun row =>
      { row with hasWitness := (firstOf inputKey base.input row).hasWitness }) := by
  have hseen := hmined.txs tx htx
  have hperm := perm_insertRows_skip inputClash_normal (·.txHashId)
    (fun _ _ heq => (Prod.mk.inj (Prod.mk.inj heq).2).2) (hashToHashId tx.1)
    ((hfaithful.keys hschema).2 rfl).2.2 (hbare.keys.2 rfl).2.2 hbare.input
    (fun row hrow hid => by
      obtain ⟨other, hother, hin⟩ := hfaithful.input row hrow
      obtain ⟨htxid, hagree⟩ := h.of_hashId hother hseen ((owner_input hin).symm.trans hid)
      have hkey := List.mem_map_of_mem (f := inputKey) hin
      rw [inputKeys_agree htxid hagree] at hkey
      exact List.map_subset inputKey (inputRows_subset inputsUtxoMap htx) hkey)
    (by rw [← hschema]; exact hexecuted.input) (by rw [← hbare.schema]; exact hfresh.input)
  refine hperm.trans (List.Perm.of_eq ?_)
  exact List.map_congr_left fun row _ => inputKey_row (key_firstOf row)

end Block

/-- After a block the rows of each of its transactions are those it would write where there
are none, except for what depends on the witnesses. -/
theorem firstKept_of_inserts (h : Determined seen)
    (hinserts : Inserts seen network .normal blocks queries before base after)
    (hfaithful : Faithful seen network before) (htx : tx ∈ txsOf network blocks)
    (hbare : Bare (hashToHashId tx.1) bare) :
    ∃ fresh, executeAll queries.toList bare = (fresh, none) ∧
      FirstKept (hashToHashId tx.1) base fresh after := by
  obtain ⟨inputsUtxoMap, hrows, hsaying⟩ := hinserts.exists_rows
  have hexecuted := executed hsaying hinserts.succeeds
  have hbase := hinserts.grows_base.faithful hfaithful
  have hschema := (tx_upserted inputsUtxoMap hexecuted (tx_rows_ne inputsUtxoMap htx)).1
  obtain ⟨fresh, hsucceeds⟩ := exists_executed hsaying hinserts.succeeds hschema hbare.schema
  have hfresh := executed hsaying hsucceeds
  refine ⟨fresh, hsucceeds, ?_, ?_, ?_⟩
  · exact firstKept_tx inputsUtxoMap h hinserts.mined hrows hbase hexecuted hfresh hbare htx
  · exact firstKept_output inputsUtxoMap h hinserts.mined hrows hbase hschema hexecuted hfresh hbare
      htx
  · exact firstKept_input inputsUtxoMap h hinserts.mined hbase hschema hexecuted hfresh hbare htx

/-- A block stores all rows of its transactions. -/
theorem complete_of_inserts (hinserts : Inserts seen network .normal blocks queries before base after)
    (htx : tx ∈ txsOf network blocks) : Complete network tx after := by
  obtain ⟨inputsUtxoMap, -, hsaying⟩ := hinserts.exists_rows
  have hexecuted := executed hsaying hinserts.succeeds
  obtain ⟨hschema, hafter⟩ := tx_upserted inputsUtxoMap hexecuted (tx_rows_ne inputsUtxoMap htx)
  have houtput := hexecuted.output
  have hinput := hexecuted.input
  rw [hschema] at houtput hinput
  refine ⟨hexecuted.schema.trans hschema, ?_, ?_, ?_⟩
  · rw [hafter]
    exact (mem_map_key_upsertRows mergesBy_hashId).2 (.inr (mem_tx_rows inputsUtxoMap htx))
  · intro key hkey
    exact (mem_keys_insertRows_skip outputClash_normal houtput).2
      (.inr (List.map_subset _ (outputRows_subset inputsUtxoMap htx) hkey))
  · intro key hkey
    exact (mem_keys_insertRows_skip inputClash_normal hinput).2
      (.inr (List.map_subset _ (inputRows_subset inputsUtxoMap htx) hkey))

/-! ## The statements of the mempool indexer -/

/-- The transactions that are stored completely have the rows they had. -/
def Leaves (seen : Set NamedTx) (network : Network) (before after : Db) : Prop :=
  ∀ tx ∈ seen, Complete network tx before →
    ownRows (hashToHashId tx.1) after = ownRows (hashToHashId tx.1) before

/-- In every state the statement keeps the tables faithful, and leaves what is complete. -/
def Fits (seen : Set NamedTx) (network : Network) (statement : ℕ → Db → Except SqlError Db) :
    Prop :=
  ∀ now db after, statement now db = .ok after →
    Grows seen network db after ∧ Leaves seen network db after

/-- What a string that skips what is stored has inserted. -/
theorem exists_inserted {ρ : Type} (column : Column ρ) (clash : Mode → ρ → ρ → Bool)
    {execute : Insert ρ → Db → Except SqlError Db}
    (hexecute : ∀ statement db, statement.onConflict ≠ .updateCurrentHeight →
      execute statement db =
        (insertInto (clash db.schema) statement (column.rows db)).map fun table =>
          column.set table db) {rows : List ρ} {statements : List (Insert ρ)}
    (hsay : Say .doNothing rows statements) (hok : batchExecute execute statements db = .ok after) :
    ∃ table, insertRows (clash db.schema) true (column.rows db) rows = some table ∧
      column.set table db = after := by
  rw [batchExecute_insert column clash hexecute (by simp) hsay db] at hok
  exact put_ok hok

section Strings

variable (htx : tx ∈ seen)

include htx in
theorem tx_fits {rows : List TxRow} {statements : List (Insert TxRow)}
    (hsay : Say .doNothing rows statements) (hrows : ∀ row ∈ rows, Written seen tx row)
    (hok : batchExecute Db.insertTx statements db = .ok after) :
    Grows seen network db after ∧ Leaves seen network db after := by
  obtain ⟨table, hinsert, rfl⟩ := exists_inserted txColumn txClash insertTx_eq hsay hok
  refine ⟨⟨fun hfaithful => ⟨?_, hfaithful.output, hfaithful.input, ?_⟩, ?_⟩, ?_⟩
  · intro row hmem
    obtain hold | hnew := mem_of_insertRows hinsert hmem
    · exact hfaithful.tx row hold
    · exact ⟨tx, htx, hrows row hnew⟩
  · intro (hschema : db.schema = .normal)
    have hkeys := hfaithful.keys hschema
    rw [hschema] at hinsert
    exact ⟨hkeys.1, fun _ => ⟨(hkeys.2 rfl).1,
      nodup_insertRows mergesBy_hashId.same_iff (hkeys.2 rfl).2.1 hinsert, (hkeys.2 rfl).2.2⟩⟩
  · intro own hcomplete
    exact
      { hcomplete with
        row := ((initial_of_insertRows hinsert).map _).subset hcomplete.row }
  · intro own _ hcomplete
    rw [hcomplete.schema] at hinsert
    have hsame := filter_insertRows_stored (·.hashId) (fun new old => (mergesBy_hashId.same_iff new old).1)
      (hashToHashId own.1) (fun row _ hid => by
        obtain ⟨old, hold, hkey⟩ := List.mem_map.1 hcomplete.row
        exact ⟨old, hold, (mergesBy_hashId.same_iff row old).2 (hid.trans hkey.symm)⟩) hinsert
    exact congrArg (fun rows => { ownRows (hashToHashId own.1) db with tx := rows }) hsame

include htx in
theorem output_fits (h : Determined seen) {statements : List (Insert OutputRow)}
    (hsay : Say .doNothing (outputRows network tx) statements)
    (hok : batchExecute Db.insertOutput statements db = .ok after) :
    Grows seen network db after ∧ Leaves seen network db after := by
  obtain ⟨table, hinsert, rfl⟩ :=
    exists_inserted outputColumn outputClash (fun _ _ _ => rfl) hsay hok
  refine ⟨⟨fun hfaithful => ⟨hfaithful.tx, ?_, hfaithful.input, ?_⟩, ?_⟩, ?_⟩
  · intro row hmem
    obtain hold | hnew := mem_of_insertRows hinsert hmem
    · exact hfaithful.output row hold
    · exact ⟨tx, htx, hnew⟩
  · intro (hschema : db.schema = .normal)
    have hkeys := hfaithful.keys hschema
    rw [hschema] at hinsert
    exact ⟨fun _ => nodup_insertRows outputClash_normal (hkeys.1 (by simp)) hinsert, hkeys.2⟩
  · intro own hcomplete
    exact
      { hcomplete with
        output := List.Subset.trans hcomplete.output
          ((initial_of_insertRows hinsert).map _).subset }
  · intro own hown hcomplete
    rw [hcomplete.schema] at hinsert
    have hsame := filter_insertRows_stored (·.txHashId)
      (fun new old hclash => (Prod.mk.inj ((outputClash_normal new old).1 hclash)).1)
      (hashToHashId own.1) (fun row hrow hid => by
        obtain ⟨htxid, hagree⟩ := h.of_hashId htx hown ((owner_output hrow).symm.trans hid)
        rw [outputRows_agree htxid hagree] at hrow
        obtain ⟨old, hold, hkey⟩ := List.mem_map.1 (hcomplete.output (List.mem_map_of_mem hrow))
        exact ⟨old, hold, (outputClash_normal row old).2 hkey.symm⟩) hinsert
    exact congrArg (fun rows => { ownRows (hashToHashId own.1) db with output := rows }) hsame

include htx in
theorem input_fits (h : Determined seen) {statements : List (Insert InputRow)}
    (hsay : Say .doNothing (inputRows tx) statements)
    (hok : batchExecute Db.insertInput statements db = .ok after) :
    Grows seen network db after ∧ Leaves seen network db after := by
  obtain ⟨table, hinsert, rfl⟩ :=
    exists_inserted inputColumn inputClash (fun _ _ _ => rfl) hsay hok
  refine ⟨⟨fun hfaithful => ⟨hfaithful.tx, hfaithful.output, ?_, ?_⟩, ?_⟩, ?_⟩
  · intro row hmem
    obtain hold | hnew := mem_of_insertRows hinsert hmem
    · exact hfaithful.input row hold
    · exact ⟨tx, htx, hnew⟩
  · intro (hschema : db.schema = .normal)
    have hkeys := hfaithful.keys hschema
    rw [hschema] at hinsert
    exact ⟨hkeys.1, fun _ => ⟨(hkeys.2 rfl).1, (hkeys.2 rfl).2.1,
      nodup_insertRows inputClash_normal (hkeys.2 rfl).2.2 hinsert⟩⟩
  · intro own hcomplete
    exact
      { hcomplete with
        input := List.Subset.trans hcomplete.input
          ((initial_of_insertRows hinsert).map _).subset }
  · intro own hown hcomplete
    rw [hcomplete.schema] at hinsert
    have hsame := filter_insertRows_stored (·.txHashId)
      (fun new old hclash =>
        (Prod.mk.inj (Prod.mk.inj ((inputClash_normal new old).1 hclash)).2).2)
      (hashToHashId own.1) (fun row hrow hid => by
        obtain ⟨htxid, hagree⟩ := h.of_hashId htx hown ((owner_input hrow).symm.trans hid)
        have hkey := List.mem_map_of_mem (f := inputKey) hrow
        rw [inputKeys_agree htxid hagree] at hkey
        obtain ⟨old, hold, hkey⟩ := List.mem_map.1 (hcomplete.input hkey)
        exact ⟨old, hold, (inputClash_normal row old).2 hkey.symm⟩) hinsert
    exact congrArg (fun rows => { ownRows (hashToHashId own.1) db with input := rows }) hsame

include htx in
/-- The strings for a transaction that is seen, written with a map of seen outputs. -/
theorem fits_mempoolQueries (h : Determined seen) {utxoMap : UtxoDetailsMap} {f : TxFormatter}
    (hsourced : Sourced seen utxoMap)
    (hfmt : (TxFormatter.newForInMempool network utxoMap).fmt none tx.2 tx.1 = .ok f) :
    ∀ statement ∈ mempoolQueries f, Fits seen network statement := by
  obtain ⟨hsayTx, hsayOutput, hsayInput⟩ := say_mempool hfmt
  have hfee : ∃ fee, TxFormatter.fee utxoMap tx.2 = .ok fee := by
    rw [TxFormatter.fmt] at hfmt
    cases hfee : TxFormatter.fee utxoMap tx.2 with
    | error panic => simp [TxFormatter.newForInMempool, hfee] at hfmt
    | ok fee => exact ⟨fee, rfl⟩
  obtain ⟨fee, hfee⟩ := hfee
  rw [mempoolQueries, List.forall_mem_cons, List.forall_mem_cons, List.forall_mem_singleton]
  refine ⟨fun now db after hok => ?_, fun _ db after => output_fits htx h hsayOutput,
    fun _ db after => input_fits htx h hsayInput⟩
  apply tx_fits htx (say_stamped now hsayTx) _ hok
  intro row hrow
  rw [List.map_singleton, List.mem_singleton] at hrow
  refine ⟨utxoMap, none, some now, hsourced, ?_, ?_⟩
  · rw [hrow]
    simp [TxFormatter.row, feeOf_of_fee hfee, hfee]
  · rw [hrow]
    rfl

end Strings

/-! ## The other programs -/

/-- What the others commit: blocks, anything that leaves the three tables as they are and
keeps to the normal schema, or, before there is one, the tables of a fresh start. -/
inductive Commits (seen : Set NamedTx) (network : Network) (before : Db) : Db → Prop where
  | blocks {mode : Mode} {blocks : List BlockData} {queries : Queries} {base after : Db}
      (h : Inserts seen network mode blocks queries before base after) :
      Commits seen network before after
  | other {after : Db} (htx : after.tx = before.tx) (houtput : after.output = before.output)
      (hinput : after.input = before.input)
      (hschema : before.schema = .normal → after.schema = .normal)
      (hkeys : after.schema = .normal → keysUnique .normal after) :
      Commits seen network before after
  | fresh {after : Db} (hschema : before.schema ≠ .normal)
      (hfresh : before.setSchema .freshBulk = .ok after) : Commits seen network before after

theorem Commits.grows (h : Commits seen network before after) :
    Grows seen network before after := by
  cases h with
  | blocks h => exact h.grows
  | other htx houtput hinput hschema hkeys => exact .of_same hschema hkeys htx houtput hinput
  | fresh hschema hfresh =>
      obtain rfl : { Db.empty with bulkMode := before.bulkMode } = after := Except.ok.inj hfresh
      exact ⟨fun _ => ⟨by simp [Db.empty], by simp [KnownOutputs, Db.empty], by simp [Db.empty],
        by simp [Db.empty]⟩, fun _ hcomplete => absurd hcomplete.schema hschema⟩

/-- Blocks are committed at any time, and the node knows seen transactions only.  The loop
runs on where the store was opened, for the network of the blocks. -/
def mining (seen : Set NamedTx) (network : Network) :
    Discipline Act MempoolStore Halt World Event Call where
  event := fun event w =>
    match event with
    | .commit db => Commits seen network w.db db
    | .tick _ => True
    | .node _ lookup => ∀ txid tx, lookup txid = some tx → (txid, tx) ∈ seen
  access := fun _ _ _ => True
  call := fun call c =>
    match call with
    | .start opened => opened = network
    | .scan => c.prog = .pure ()

/-- The tables are faithful, and so is the node. -/
structure Sound (seen : Set NamedTx) (network : Network) (w : World) : Prop where
  faithful : Faithful seen network w.db
  lookup : ∀ txid tx, w.lookup txid = some tx → (txid, tx) ∈ seen

/-- What an access does to the database, and that it does not change what the node knows. -/
def Touches (seen : Set NamedTx) (network : Network) (γ : Type) (_ : Act γ)
    (before after : World) : Prop :=
  Grows seen network before.db after.db ∧ Leaves seen network before.db after.db ∧
    after.lookup = before.lookup

/-- What lies between two states of a run. -/
def Since (seen : Set NamedTx) (network : Network) (before after : World) : Prop :=
  (Sound seen network before → Sound seen network after) ∧
    ∀ tx, Complete network tx before.db → Complete network tx after.db

/-- Between two calls the store is opened for the network. -/
def Ready (seen : Set NamedTx) (network : Network) (store : MempoolStore) (w : World) : Prop :=
  Sound seen network w ∧ store.network = network

def Fitting (seen : Set NamedTx) (network : Network) : (γ : Type) → Act γ → Prop
  | _, .execute statement => Fits seen network statement
  | _, _ => True

variable {w later : World} {store : MempoolStore} {α : Type}

theorem Touches.since {γ : Type} {access : Act γ} (h : Touches seen network γ access w later) :
    Since seen network w later :=
  ⟨fun hsound => ⟨h.1.faithful hsound.faithful, h.2.2 ▸ hsound.lookup⟩, h.1.complete⟩

theorem since_step {event : Event} (hevent : (mining seen network).event event w) :
    Since seen network w (w.step event) := by
  cases event with
  | commit db =>
      have hgrows : Grows seen network w.db db := Commits.grows hevent
      exact ⟨fun h => ⟨hgrows.faithful h.faithful, h.lookup⟩, hgrows.complete⟩
  | tick now => exact ⟨fun h => ⟨h.faithful, h.lookup⟩, fun _ => id⟩
  | node mempool lookup => exact ⟨fun h => ⟨h.faithful, hevent⟩, fun _ => id⟩

theorem stable_sound : (mining seen network).Stable system (Sound seen network) :=
  fun _ _ hevent h => (since_step hevent).1 h

theorem touches_exec {γ : Type} {access : Act γ} (hfitting : Fitting seen network γ access)
    (fails : Bool) (w : World) :
    Touches seen network γ access w ((exec access fails w).after w) := by
  have hsame : ∀ later : World, later.db = w.db → later.lookup = w.lookup →
      Touches seen network γ access w later := by
    intro later hdb hlookup
    rw [Touches, hdb]
    exact ⟨⟨id, fun _ => id⟩, fun _ _ _ => rfl, hlookup⟩
  cases access with
  | execute statement =>
      cases fails with
      | true => exact hsame w rfl rfl
      | false =>
          rw [exec, execStatement]
          cases hstatement : statement w.clock w.db with
          | error e => exact hsame w rfl rfl
          | ok db =>
              obtain ⟨hgrows, hleaves⟩ := hfitting w.clock w.db db hstatement
              exact ⟨hgrows, hleaves, rfl⟩
  | _ => cases fails <;> exact hsame _ rfl rfl

/-! ## The programs -/

abbrev Stepping (seen : Set NamedTx) (network : Network) (Q : α → MempoolStore → World → Prop)
    (prog : MempoolM α) (store : MempoolStore) (w : World) : Prop :=
  Steps system (mining seen network) (Touches seen network) Q prog store w

theorem stepping_act {β : Type} {access : Act β} {next : β → MempoolM α}
    {Q : α → MempoolStore → World → Prop} (hfitting : Fitting seen network β access)
    (hnext : ∀ w fails value later, Sound seen network w →
      exec access fails w = .done value later → Sound seen network later →
        Stepping seen network Q (next value) store later) (h : Sound seen network w) :
    Stepping seen network Q (.act access next) store w := by
  apply Steps.act stable_sound _ h
  intro w h fails _
  have htouches := touches_exec hfitting fails w
  refine ⟨htouches, ?_⟩
  cases hexec : system.exec access fails w with
  | done value later =>
      have hexec' : exec access fails w = .done value later := hexec
      rw [hexec'] at htouches
      exact hnext w fails value later h hexec' (htouches.since.1 h)
  | _ => trivial

theorem stepping_fetchOutputs (hnetwork : store.network = network)
    (queries : List (List HashIdOutPoint)) :
    ∀ {out w}, Sourced seen out → Sound seen network w →
      Stepping seen network (fun result store w => Ready seen network store w ∧
        ∀ utxoMap, result = .ok utxoMap → Sourced seen utxoMap) (fetchOutputs queries out) store
          w := by
  induction queries with
  | nil =>
      intro out w hout h
      refine ⟨⟨h, hnetwork⟩, fun utxoMap heq => ?_⟩
      rwa [← Except.ok.inj heq]
  | cons chunk queries ih =>
      intro out w hout h
      apply stepping_act _ _ h
      · trivial
      intro w fails value later h hexec hlater
      cases fails with
      | true =>
          obtain ⟨rfl, rfl⟩ := Effect.done.inj hexec
          exact ⟨⟨hlater, hnetwork⟩, fun _ heq => by cases heq⟩
      | false =>
          obtain ⟨rfl, rfl⟩ := Effect.done.inj hexec
          exact ih (sourced_fetchChunk h.faithful.output chunk hout) hlater

theorem stepping_executeQueries (hnetwork : store.network = network)
    (statements : List (ℕ → Db → Except SqlError Db)) :
    ∀ {w}, (∀ statement ∈ statements, Fits seen network statement) → Sound seen network w →
      Stepping seen network (fun _ => Ready seen network) (executeQueries statements) store w := by
  induction statements with
  | nil => exact fun _ h => ⟨h, hnetwork⟩
  | cons statement statements ih =>
      intro w hfits h
      rw [List.forall_mem_cons] at hfits
      apply stepping_act (show Fitting seen network _ (.execute statement) from hfits.1) _ h
      intro w fails value later h hexec hlater
      cases value with
      | error e => exact ⟨hlater, hnetwork⟩
      | ok value => exact ih hfits.2 hlater

theorem stepping_insert (hdetermined : Determined seen) (hnetwork : store.network = network)
    {txid : Txid} {data : Option Transaction} (hdata : ∀ tx, data = some tx → (txid, tx) ∈ seen)
    (h : Sound seen network w) :
    Stepping seen network (fun _ => Ready seen network) (Mempool.insert txid data) store w := by
  cases data with
  | none => exact ⟨h, hnetwork⟩
  | some tx =>
      refine Steps.bind ?_ (stepping_fetchOutputs hnetwork _ sourced_empty h)
      intro result store w hresult
      obtain ⟨⟨h, hnetwork⟩, hsourced⟩ := hresult
      cases result with
      | error e => exact ⟨h, hnetwork⟩
      | ok utxoMap =>
          by_cases hlen : utxoMap.keys.length ≠ tx.input.length
          · simp only [if_pos hlen]
            exact ⟨h, hnetwork⟩
          · simp only [if_neg hlen, insertTxData, Prog.bind_eq, Prog.read_bind, steps_loc]
            cases hfmt : (TxFormatter.newForInMempool store.network utxoMap).fmt none tx txid with
            | error panic => trivial
            | ok f =>
                rw [hnetwork] at hfmt
                exact stepping_executeQueries hnetwork _ (fits_mempoolQueries (hdata tx rfl)
                  hdetermined (hsourced utxoMap rfl) hfmt) h

theorem stepping_visit (hdetermined : Determined seen) (hnetwork : store.network = network)
    (txid : Txid) (h : Sound seen network w) :
    Stepping seen network (fun _ => Ready seen network) (visit txid) store w := by
  apply stepping_act _ _ h
  · trivial
  intro w fails done later _ _ h
  cases done with
  | true => exact ⟨h, hnetwork⟩
  | false =>
      apply stepping_act _ _ h
      · trivial
      intro w fails data later h hexec hlater
      have hdata : ∀ tx, data = some tx → (txid, tx) ∈ seen := by
        intro tx htx
        cases fails with
        | true =>
            obtain ⟨rfl, -⟩ := Effect.done.inj hexec
            cases htx
        | false =>
            obtain ⟨rfl, -⟩ := Effect.done.inj hexec
            exact h.lookup txid tx htx
      change Stepping seen network _ (Prog.bind (Mempool.insert txid data) _) store _
      refine Steps.bind ?_ (stepping_insert hdetermined hnetwork hdata hlater)
      intro result store w hready
      cases result with
      | error e => exact hready
      | ok value =>
          apply stepping_act _ _ hready.1
          · trivial
          exact fun _ _ _ _ _ _ h => ⟨h, hready.2⟩

theorem stepping_visitAll (hdetermined : Determined seen) (txids : List Txid) :
    ∀ {store w}, Ready seen network store w →
      Stepping seen network (fun _ => Ready seen network) (visitAll txids) store w := by
  induction txids with
  | nil => exact fun h => h
  | cons txid txids ih =>
      exact fun h => Steps.bind (fun _ _ _ => ih) (stepping_visit hdetermined h.2 txid h.1)

theorem stepping_scan (hdetermined : Determined seen) (h : Ready seen network store w) :
    Stepping seen network (fun _ => Ready seen network) scan store w := by
  have hlisting : ∀ {w}, Sound seen network w → Stepping seen network
      (fun _ => Ready seen network) ((Prog.perform .getRawMempool).bind visitAll) store w := by
    intro w hsound
    apply stepping_act _ _ hsound
    · trivial
    exact fun _ _ txids _ _ _ hsound => stepping_visitAll hdetermined txids ⟨hsound, h.2⟩
  rw [scan]
  simp only [Prog.bind_eq, Prog.perform_bind]
  apply stepping_act _ _ h.1
  · trivial
  intro w _ len later _ _ hsound
  split
  · apply stepping_act _ _ hsound
    · trivial
    exact fun _ _ _ _ _ _ hsound => hlisting hsound
  · exact hlisting hsound

theorem stepping_new (w : World) (h : Sound seen network w) (store : MempoolStore) :
    Stepping seen network (fun _ => Ready seen network) (new network) store w := by
  have hopen : ∀ (mode : Mode) {store : MempoolStore} {w : World}, Sound seen network w →
      Stepping seen network (fun _ => Ready seen network)
        (if mode.isBulk then .halt .bulkMode else Prog.modify fun _ => ⟨network⟩ : MempoolM Unit)
          store w := by
    intro mode store w h
    split
    · trivial
    · exact ⟨h, rfl⟩
  simp only [new, readIndexerState, Prog.bind_eq, Prog.perform_bind]
  apply stepping_act _ _ h
  · intro _ db after hok
    obtain rfl : db = after := Except.ok.inj hok
    exact ⟨⟨id, fun _ => id⟩, fun _ _ _ => rfl⟩
  intro w _ value later _ _ h
  cases value with
  | error e => trivial
  | ok value =>
      apply stepping_act _ _ h
      · trivial
      intro w _ value later _ _ h
      cases value with
      | error e => trivial
      | ok mode =>
          cases mode with
          | some mode => exact hopen mode h
          | none =>
              apply stepping_act _ _ h
              · intro _ db after hok
                obtain rfl : { db with bulkMode := some true } = after := Except.ok.inj hok
                exact ⟨⟨fun h => ⟨h.tx, h.output, h.input, h.keys⟩,
                  fun _ h => ⟨h.schema, h.row, h.output, h.input⟩⟩, fun _ _ _ => rfl⟩
              intro w _ value later _ _ h
              cases value with
              | error e => trivial
              | ok value => exact hopen .freshBulk h

/-! ## Every run -/

theorem sound_initial : Sound seen network initial.shared where
  faithful := ⟨by simp [initial, Db.empty], by simp [KnownOutputs, initial, Db.empty],
    by simp [initial, Db.empty], by simp [initial, Db.empty]⟩
  lookup := fun _ _ h => by cases h

theorem stepping_run (h : Determined seen) (labels more : List (Label Event Call))
    (hfollows : (mining seen network).follows system (labels ++ more) initial) :
    StepsConfig system (mining seen network) (Touches seen network) (Ready seen network)
        (system.run (labels ++ more) initial) ∧
      Since seen network (system.run labels initial).shared
        (system.run (labels ++ more) initial).shared := by
  apply StepsConfig.run (H := Since seen network) (fun _ => ⟨id, fun _ => id⟩)
    (fun hfirst hsecond => ⟨hsecond.1 ∘ hfirst.1, fun tx => hsecond.2 tx ∘ hfirst.2 tx⟩)
    (fun _ _ _ => Touches.since)
    (fun _ event w hevent hready => ⟨stable_sound event w hevent hready.1, hready.2⟩)
    (fun _ _ => since_step) _ _ labels more hfollows
  · intro before call _ hcall hsteps hsince
    have hsound := hsince.1 sound_initial
    cases call with
    | start opened =>
        obtain rfl : opened = network := hcall
        have hentered : Sound seen opened
            (enter (.start opened) (system.run before initial).shared) :=
          ⟨hsound.faithful, hsound.lookup⟩
        exact ⟨⟨fun _ => hentered, fun _ => id⟩, stepping_new _ hentered _⟩
    | scan =>
        rw [StepsConfig, show (system.run before initial).prog = .pure () from hcall] at hsteps
        exact ⟨⟨id, fun _ => id⟩, stepping_scan h hsteps⟩
  · trivial

/-- After a block the rows of its transactions are those that it would write where there are
none of theirs, however they have been seen before; only the time and what depends on the
witnesses is kept from the rows written first.  No later step of the mempool indexer changes
any of them. -/
theorem mined_rows_settled (seen : Set NamedTx) (h : Determined seen) (network : Network)
    (labels : List (Label Event Call))
    (hfollows : (mining seen network).follows system labels initial) (blocks : List BlockData)
    (queries : Queries) (base after : Db)
    (hinserts : Inserts seen network .normal blocks queries (system.run labels initial).shared.db
      base after) (tx : NamedTx) (htx : tx ∈ txsOf network blocks) :
    (∀ bare, Bare (hashToHashId tx.1) bare →
      ∃ fresh, executeAll queries.toList bare = (fresh, none) ∧
        FirstKept (hashToHashId tx.1) base fresh after) ∧
    ∀ more, (mining seen network).follows system (labels ++ .other (.commit after) :: more) initial →
      let c := system.run (labels ++ .other (.commit after) :: more) initial
      ∀ fails, ownRows (hashToHashId tx.1) (system.next (.step fails) c).shared.db =
        ownRows (hashToHashId tx.1) c.shared.db := by
  have hsound := (stepping_run h [] labels hfollows).2.1 sound_initial
  refine ⟨fun bare hbare => firstKept_of_inserts h hinserts hsound.faithful htx hbare, ?_⟩
  intro more hmore c fails
  have hsplit : labels ++ .other (.commit after) :: more =
      (labels ++ [.other (.commit after)]) ++ more := by simp
  have hcommitted : Complete network tx (system.run (labels ++ [.other (.commit after)])
      initial).shared.db := by
    rw [System.run_append]
    exact complete_of_inserts hinserts htx
  rw [hsplit] at hmore
  obtain ⟨hsteps, -, hcomplete⟩ := stepping_run h _ more hmore
  replace hcomplete : Complete network tx c.shared.db := by
    simp only [c, hsplit]
    exact hcomplete tx hcommitted
  replace hsteps : StepsConfig system (mining seen network) (Touches seen network)
      (Ready seen network) c := by
    simp only [c, hsplit]
    exact hsteps
  generalize c = c at hsteps hcomplete
  obtain ⟨locals, w, prog⟩ := c
  cases prog with
  | act access next =>
      have htouches : Touches seen network _ access w ((exec access fails w).after w) :=
        hsteps.related trivial fails
      have hshared : (system.next (.step fails) ⟨locals, w, .act access next⟩).shared =
          (exec access fails w).after w := by
        simp only [System.next, System.advance, system]
        cases exec access fails w <;> rfl
      rw [hshared]
      exact htouches.2.1 tx (hinserts.mined.txs tx htx) hcomplete
  | _ => rfl

/-! ## A variant with another witness -/

/-- The output that the child spends. -/
def funding : Transaction := { CurrentHeight.coinbaseOf 1 with output := [⟨10, ⟨none⟩⟩] }

/-- The child with a witness. -/
def signed : Transaction :=
  { child with weight := 10, input := [⟨⟨hashStarting 1, 0⟩, [[1]]⟩] }

def variants : List NamedTx :=
  [(funding.txid, funding), (child.txid, child), (signed.txid, signed)]

theorem variants_determined : Determined {tx | tx ∈ variants} := by
  have hagree : ∀ left ∈ variants, ∀ right ∈ variants, left.1 = right.1 →
      left.2.input.map (·.previousOutput) = right.2.input.map (·.previousOutput) ∧
        left.2.output = right.2.output ∧ left.2.lockTime = right.2.lockTime := by decide +kernel
  have hinjective : ∀ left ∈ variants, ∀ right ∈ variants,
      hashToHashId left.1 = hashToHashId right.1 → left.1 = right.1 := by decide +kernel
  refine ⟨hinjective, fun left hleft right hright htxid => ?_⟩
  obtain ⟨houtpoints, houtputs, hlockTime⟩ := hagree left hleft right hright htxid
  exact ⟨houtpoints, houtputs, hlockTime⟩

/-- The queries for a block, with a map that `process_blocks` gathers from an empty cache. -/
def queriesFor (block : BlockData) (fetches : List (List HashIdOutPoint × Db)) :
    Except FormatPanic Queries :=
  match UtxoSetCache.default.processLocal [block] (txIdMapFromBlocks [block] .bitcoin) with
  | .error panic => .error panic
  | .ok consumed => fmtInsertBlockdataSql [block] (insertFetched consumed.found (fetched fetches))
      (txIdMapFromBlocks [block] .bitcoin) .normal .bitcoin

def queriesOf (block : BlockData) (fetches : List (List HashIdOutPoint × Db)) : Queries :=
  match queriesFor block fetches with
  | .error _ => ⟨[], [], [], [], [], []⟩
  | .ok queries => queries

theorem inserts_of_check {block : BlockData} {fetches : List (List HashIdOutPoint × Db)}
    (hmined : ∀ tx ∈ txsOf .bitcoin [block], tx ∈ variants)
    (hfetches : ∀ fetch ∈ fetches, KnownOutputs {tx | tx ∈ variants} .bitcoin fetch.2)
    (hformatted : (queriesFor block fetches).isOk)
    (hsucceeds : (executeAll (queriesOf block fetches).toList before).2 = none) :
    Inserts {tx | tx ∈ variants} .bitcoin .normal [block] (queriesOf block fetches) before before
      (executeAll (queriesOf block fetches).toList before).1 := by
  refine ⟨.inl rfl, ⟨by simp, hmined⟩, ?_, Prod.ext rfl hsucceeds⟩
  have hqueries : queriesFor block fetches = .ok (queriesOf block fetches) := by
    rw [queriesOf]
    cases hfor : queriesFor block fetches with
    | error panic => simp [hfor, Except.isOk, Except.toBool] at hformatted
    | ok queries => rfl
  rw [queriesFor] at hqueries
  cases hprocess : UtxoSetCache.default.processLocal [block]
      (txIdMapFromBlocks [block] .bitcoin) with
  | error panic => simp [hprocess] at hqueries
  | ok consumed =>
      simp only [hprocess] at hqueries
      exact ⟨_, ⟨_, consumed, fetches, .default, hprocess, hfetches, rfl⟩, hqueries⟩

/-- The normal schema, and in it the block with the funding transaction. -/
def opened : Db := { Db.empty with bulkMode := some false, schema := .normal }

def funded : Db := (executeAll (queriesOf (blockWith 0 3 0 [funding]) []).toList opened).1

theorem funded_inserts : Inserts {tx | tx ∈ variants} .bitcoin .normal [blockWith 0 3 0 [funding]]
    (queriesOf (blockWith 0 3 0 [funding]) []) opened opened funded :=
  inserts_of_check (by decide +kernel) (by simp) (by decide +kernel) (by decide +kernel)

/-- The child is seen first without its witness; the mempool indexer makes some steps. -/
def seenFirst (steps : ℕ) : List (Label Event Call) :=
  [.other (.commit opened), .other (.commit funded), .call (.start .bitcoin), .step false,
    .step false, .other (.node [child.txid] fun txid => if txid = child.txid then some child else none),
    .call .scan] ++ List.replicate steps (.step false)

def seenState (steps : ℕ) : Db := (system.run (seenFirst steps) initial).shared.db

theorem follows_steps (steps : ℕ) (c : Config Act MempoolStore Halt World) :
    (mining seen network).follows system (List.replicate steps (.step false)) c := by
  induction steps generalizing c with
  | zero => trivial
  | succ steps ih => exact ⟨fun _ _ _ => trivial, ih _⟩

theorem follows_seenFirst (steps : ℕ) :
    (mining {tx | tx ∈ variants} .bitcoin).follows system (seenFirst steps) initial := by
  have hopened : Commits {tx | tx ∈ variants} .bitcoin initial.shared.db opened :=
    .other rfl rfl rfl (fun _ => rfl) fun _ => by decide
  have hfunded : Commits {tx | tx ∈ variants} .bitcoin opened funded := .blocks funded_inserts
  have hlookup : ∀ txid tx, (if txid = child.txid then some child else none) = some tx →
      (txid, tx) ∈ variants := by
    intro txid tx hsome
    split_ifs at hsome with hid
    rw [hid, ← Option.some.inj hsome]
    decide
  rw [seenFirst, Discipline.follows_append]
  constructor
  · exact ⟨hopened, hfunded, rfl, fun _ _ _ => trivial, fun _ _ _ => trivial, hlookup, rfl, trivial⟩
  · exact follows_steps steps _

/-- The block with the child and its witness, and what it leaves. -/
def signedQueries : Queries :=
  queriesOf (blockWith 1 4 3 [signed]) [([.ofOutPoint ⟨hashStarting 1, 0⟩], funded)]

def settled (steps : ℕ) : Db := (executeAll signedQueries.toList (seenState steps)).1

theorem signed_inserts (steps : ℕ)
    (hsucceeds : (executeAll signedQueries.toList (seenState steps)).2 = none) :
    Inserts {tx | tx ∈ variants} .bitcoin .normal [blockWith 1 4 3 [signed]] signedQueries
      (seenState steps) (seenState steps) (settled steps) := by
  have hfunded : funded.output = outputRows .bitcoin (funding.txid, funding) := by decide +kernel
  refine inserts_of_check (by decide +kernel) ?_ (by decide +kernel) hsucceeds
  intro fetch hmem row hrow
  rw [List.mem_singleton.1 hmem, hfunded] at hrow
  exact ⟨(funding.txid, funding), List.mem_cons_self, hrow⟩

theorem bare_opened : Bare (hashToHashId child.txid) opened :=
  ⟨rfl, by decide, by simp [opened, Db.empty], by simp [opened, Db.empty],
    by simp [opened, Db.empty]⟩

/-- The block is committed after the first of the three statements. -/
theorem signed_child_settled :
    (∃ fresh, executeAll signedQueries.toList opened = (fresh, none) ∧
      FirstKept (hashToHashId child.txid) (seenState 6) fresh (settled 6)) ∧
    let c := system.run (seenFirst 6 ++ [.other (.commit (settled 6))]) initial
    ownRows (hashToHashId child.txid) (system.next (.step false) c).shared.db =
      ownRows (hashToHashId child.txid) c.shared.db := by
  have hinserts := signed_inserts 6 (by decide +kernel)
  obtain ⟨hkept, hlater⟩ := mined_rows_settled {tx | tx ∈ variants} variants_determined .bitcoin
    (seenFirst 6) (follows_seenFirst 6) _ _ _ _ hinserts (child.txid, signed) (by decide +kernel)
  have hcommit : (mining {tx | tx ∈ variants} .bitcoin).follows system
      (seenFirst 6 ++ [.other (.commit (settled 6))]) initial :=
    (Discipline.follows_append _ _ _ _ _).2 ⟨follows_seenFirst 6, .blocks hinserts, trivial⟩
  exact ⟨hkept opened bare_opened, hlater [] hcommit false⟩

/-- Whatever has been written before, the rows a block leaves are those it writes where there
are none. -/
def Independent (same : OwnRows → OwnRows → Prop) : Prop :=
  ∀ (seen : Set NamedTx) (_ : Determined seen) (network : Network) (labels : List (Label Event Call)),
    (mining seen network).follows system labels initial →
    ∀ (blocks : List BlockData) (queries : Queries) (base after : Db),
      Inserts seen network .normal blocks queries (system.run labels initial).shared.db base after →
      ∀ tx ∈ txsOf network blocks, ∀ bare fresh, Bare (hashToHashId tx.1) bare →
        executeAll queries.toList bare = (fresh, none) →
          same (ownRows (hashToHashId tx.1) fresh) (ownRows (hashToHashId tx.1) after)

/-- The weight of the child and the mark of its input stay those of the variant without the
witness, which has been written first. -/
theorem first_variant_stays :
    ¬ Independent (fun fresh after => (after.tx.map (·.weight)).Perm (fresh.tx.map (·.weight))) ∧
      ¬ Independent fun fresh after =>
        (after.input.map (·.hasWitness)).Perm (fresh.input.map (·.hasWitness)) := by
  have hsame : ∀ {same : OwnRows → OwnRows → Prop}, Independent same →
      same (ownRows (hashToHashId child.txid) (executeAll signedQueries.toList opened).1)
        (ownRows (hashToHashId child.txid) (settled 9)) := by
    intro same h
    exact h {tx | tx ∈ variants} variants_determined .bitcoin (seenFirst 9) (follows_seenFirst 9)
      _ _ _ _ (signed_inserts 9 (by decide +kernel)) (child.txid, signed) (by decide +kernel) opened
      _ bare_opened (Prod.ext rfl (by decide +kernel))
  constructor
  · intro h
    exact absurd (hsame h) (by decide +kernel)
  · intro h
    exact absurd (hsame h) (by decide +kernel)

end BitcoinIndexer.FirstWriter
