import BitcoinIndexer.Core.Joins
import BitcoinIndexer.Db.Tables

/-!
# The view of the mempool

`tx_hash_ids_in_mempool` joins each input of an unconfirmed transaction with the other
inputs that spend the same output, and these with their transactions where confirmed.  A
transaction is listed if the last column of its group is empty throughout.
-/

namespace BitcoinIndexer.Views

open BitcoinIndexer.Types
open BitcoinIndexer.Tables
open BitcoinIndexer.Joins

/-- `FROM tx JOIN input ON input.tx_hash_id = tx.hash_id`. -/
def txInputs (db : Db) : List (TxRow × InputRow) :=
  join (fun tx input => input.txHashId = tx.hashId) db.tx db.input

/-- `LEFT JOIN input AS other_input`. -/
def otherInputs (db : Db) : List ((TxRow × InputRow) × Option InputRow) :=
  leftJoin (fun (_, input) otherInput =>
    otherInput.outputTxHashId = input.outputTxHashId ∧
      otherInput.outputTxIdx = input.outputTxIdx ∧ otherInput.txHashId ≠ input.txHashId)
    (txInputs db) db.input

/-- `LEFT JOIN tx AS other_tx`; nothing equals the `NULL` of a missing `other_input`. -/
def otherTxs (db : Db) : List (((TxRow × InputRow) × Option InputRow) × Option TxRow) :=
  leftJoin (fun (_, otherInput) otherTx =>
    otherInput.any fun otherInput =>
      otherTx.hashId = otherInput.txHashId ∧ otherTx.currentHeight.isSome)
    (otherInputs db) db.tx

/-- `count(other_tx.hash_id)`. -/
def countOtherTx (rows : List (((TxRow × InputRow) × Option InputRow) × Option TxRow)) : ℕ :=
  rows.countP fun (_, otherTx) => otherTx.isSome

def txHashIdsInMempool (db : Db) : List HashId :=
  let rows := (otherTxs db).filter fun (((tx, _), _), _) => tx.currentHeight = none
  (having (fun group => countOtherTx group = 0)
    (groupBy (fun (((tx, _), _), _) => tx.hashId) rows)).map Prod.fst

/-- Another transaction, which is confirmed, spends an output that this one spends. -/
def ConfirmedConflict (db : Db) (hashId : HashId) : Prop :=
  ∃ input ∈ db.input, ∃ otherInput ∈ db.input, ∃ otherTx ∈ db.tx,
    input.txHashId = hashId ∧ otherInput.outputTxHashId = input.outputTxHashId ∧
      otherInput.outputTxIdx = input.outputTxIdx ∧ otherTx.hashId = otherInput.txHashId ∧
      otherTx.hashId ≠ hashId ∧ otherTx.currentHeight ≠ none

variable {db : Db}

theorem mem_txInputs {tx : TxRow} {input : InputRow} :
    (tx, input) ∈ txInputs db ↔ tx ∈ db.tx ∧ input ∈ db.input ∧ input.txHashId = tx.hashId := by
  rw [txInputs, mem_join, decide_eq_true_iff]

/-- A row under the joins belongs to an input of the transaction. -/
theorem mem_otherTxs_input {tx : TxRow} {input : InputRow} {otherInput : Option InputRow}
    {otherTx : Option TxRow} (hmem : (((tx, input), otherInput), otherTx) ∈ otherTxs db) :
    tx ∈ db.tx ∧ input ∈ db.input ∧ input.txHashId = tx.hashId :=
  mem_txInputs.1 (mem_leftJoin.1 (mem_leftJoin.1 hmem).1).1

/-- Every input of a transaction has a row under the joins. -/
theorem exists_mem_otherTxs {tx : TxRow} {input : InputRow} (hmem : (tx, input) ∈ txInputs db) :
    ∃ otherInput otherTx, (((tx, input), otherInput), otherTx) ∈ otherTxs db := by
  obtain ⟨otherInput, hother⟩ := List.exists_mem_of_ne_nil _ (partners_ne_nil (tx, input))
  obtain ⟨otherTx, htx⟩ := List.exists_mem_of_ne_nil _ (partners_ne_nil ((tx, input), otherInput))
  exact ⟨otherInput, otherTx, mem_leftJoin.2 ⟨mem_leftJoin.2 ⟨hmem, hother⟩, htx⟩⟩

/-- The last column is filled exactly by the confirmed transactions in conflict. -/
theorem exists_some_mem_otherTxs {tx : TxRow} (htx : tx ∈ db.tx) :
    (∃ input otherInput otherTx, (((tx, input), otherInput), some otherTx) ∈ otherTxs db) ↔
      ConfirmedConflict db tx.hashId := by
  constructor
  · rintro ⟨input, otherInput, otherTx, hmem⟩
    obtain ⟨-, hinput, hspender⟩ := mem_otherTxs_input hmem
    obtain ⟨hleft, hright⟩ := mem_leftJoin.1 hmem
    obtain ⟨hotherTx, hon⟩ := some_mem_partners.1 hright
    cases otherInput with
    | none => simp at hon
    | some other =>
        obtain ⟨hother, hsame⟩ := some_mem_partners.1 (mem_leftJoin.1 hleft).2
        simp only [decide_eq_true_iff] at hsame
        simp only [Option.any_some, decide_eq_true_iff] at hon
        refine ⟨input, hinput, other, hother, otherTx, hotherTx, hspender, hsame.1, hsame.2.1,
          hon.1, ?_, Option.isSome_iff_ne_none.1 hon.2⟩
        rw [hon.1, ← hspender]
        exact hsame.2.2
  · rintro ⟨input, hinput, other, hother, otherTx, hotherTx, hspender, hid, hidx, htx', hne, hheight⟩
    refine ⟨input, some other, otherTx, ?_⟩
    rw [otherTxs, mem_leftJoin, otherInputs, mem_leftJoin]
    refine ⟨⟨mem_txInputs.2 ⟨htx, hinput, hspender⟩, some_mem_partners.2 ⟨hother, ?_⟩⟩,
      some_mem_partners.2 ⟨hotherTx, ?_⟩⟩
    · rw [decide_eq_true_iff]
      refine ⟨hid, hidx, ?_⟩
      rw [← htx', hspender]
      exact hne
    · simp only [Option.any_some, decide_eq_true_iff]
      exact ⟨htx', Option.isSome_iff_ne_none.2 hheight⟩

theorem mem_txHashIdsInMempool {hashId : HashId} : hashId ∈ txHashIdsInMempool db ↔
    (∃ row ∈ otherTxs db, row.1.1.1.currentHeight = none ∧ row.1.1.1.hashId = hashId) ∧
      ∀ row ∈ otherTxs db, row.1.1.1.currentHeight = none → row.1.1.1.hashId = hashId →
        row.2 = none := by
  rw [txHashIdsInMempool, mem_map_fst_having, decide_eq_true_iff, countOtherTx,
    List.countP_eq_zero]
  simp only [List.mem_map, List.mem_filter, decide_eq_true_iff, Bool.not_eq_true,
    Option.isSome_eq_false_iff, Option.isNone_iff_eq_none, and_imp, and_assoc]

/-- The view lists a transaction, once, exactly if it is unconfirmed, has an input, and
spends nothing that another, confirmed transaction spends. -/
theorem mempool_lists_unconflicted (db : Db) (hkeys : keysUnique .normal db) :
    (txHashIdsInMempool db).Nodup ∧
      (∀ hashId ∈ txHashIdsInMempool db, ∃ tx ∈ db.tx, tx.hashId = hashId) ∧
      ∀ tx ∈ db.tx, tx.hashId ∈ txHashIdsInMempool db ↔ tx.currentHeight = none ∧
        (∃ input ∈ db.input, input.txHashId = tx.hashId) ∧ ¬ ConfirmedConflict db tx.hashId := by
  have hunique : ∀ left ∈ db.tx, ∀ right ∈ db.tx, left.hashId = right.hashId → left = right :=
    fun left hleft right hright heq => List.inj_on_of_nodup_map (hkeys.2 rfl).2.1 hleft hright heq
  refine ⟨?_, ?_, ?_⟩
  · exact nodup_map_fst_having _ _ _
  · intro hashId hmem
    obtain ⟨⟨row, hrow, -, heq⟩, -⟩ := mem_txHashIdsInMempool.1 hmem
    exact ⟨row.1.1.1, (mem_otherTxs_input hrow).1, heq⟩
  · intro tx htx
    rw [mem_txHashIdsInMempool, ← exists_some_mem_otherTxs htx]
    constructor
    · rintro ⟨⟨row, hrow, hheight, heq⟩, hall⟩
      obtain ⟨hmem, hinput, hspender⟩ := mem_otherTxs_input hrow
      have hrowTx := hunique _ hmem _ htx heq
      rw [hrowTx] at hheight hspender
      refine ⟨hheight, ⟨_, hinput, hspender⟩, ?_⟩
      rintro ⟨input, otherInput, otherTx, hfilled⟩
      exact Option.some_ne_none _ (hall _ hfilled hheight rfl)
    · rintro ⟨hheight, ⟨input, hinput, hspender⟩, hconflict⟩
      obtain ⟨otherInput, otherTx, hrow⟩ :=
        exists_mem_otherTxs (mem_txInputs.2 ⟨htx, hinput, hspender⟩)
      refine ⟨⟨_, hrow, hheight, rfl⟩, fun row hmem _ heq => ?_⟩
      have hrowTx := hunique _ (mem_otherTxs_input hmem).1 _ htx heq
      rw [Option.eq_none_iff_forall_not_mem]
      intro filled hfilled
      apply hconflict
      refine ⟨row.1.1.2, row.1.2, filled, ?_⟩
      rw [← hrowTx, ← show row.2 = some filled from hfilled]
      exact hmem

/-! ## A database after a reorg -/

def blockNamed (id : UInt8) (height : BlockHeight) (extinct : Bool) : BlockRow where
  time := 0
  height := height
  extinct := extinct
  hashId := [id]
  hashRest := []
  prevHashId := []
  merkleRoot := []

def txNamed (id : UInt8) (currentHeight : Option BlockHeight) : TxRow where
  mempoolTs := none
  fee := 0
  locktime := 0
  currentHeight := currentHeight
  weight := 0
  coinbase := false
  hashId := [id]
  hashRest := []

def addressNamed (payload : String) : Option Address := some ⟨payload, .regtest⟩

/-- Transaction 2 is in the block that became extinct and in the one that replaced it;
transaction 3, in conflict with it, is only in the former.  Transactions 4 and 5 are
unconfirmed and spend the same output. -/
def reorganized : Db where
  bulkMode := some false
  schema := .normal
  eventIdSeq := 1
  event := []
  block := [blockNamed 10 0 false, blockNamed 11 1 true, blockNamed 12 1 false]
  blockTx := [⟨[10], [1]⟩, ⟨[11], [2]⟩, ⟨[11], [3]⟩, ⟨[12], [2]⟩]
  tx := [txNamed 1 (some 0), txNamed 2 (some 1), txNamed 3 none, txNamed 4 none, txNamed 5 none]
  output := [⟨50, 0, [1], addressNamed "a"⟩, ⟨7, 1, [1], none⟩, ⟨30, 0, [2], addressNamed "b"⟩,
    ⟨45, 0, [3], addressNamed "a"⟩, ⟨29, 0, [4], addressNamed "c"⟩]
  input := [⟨0, false, [1], [2]⟩, ⟨0, false, [1], [3]⟩, ⟨0, false, [2], [4]⟩, ⟨0, false, [2], [5]⟩]

theorem unconfirmed_rivals_listed : txHashIdsInMempool reorganized = [[4], [5]] ∧
    ¬ ConfirmedConflict reorganized [4] := by
  have hkeys : keysUnique .normal reorganized := by decide
  have hlisted : txHashIdsInMempool reorganized = [[4], [5]] := by decide
  obtain ⟨-, -, hiff⟩ := mempool_lists_unconflicted reorganized hkeys
  have hmem : (txNamed 4 none).hashId ∈ txHashIdsInMempool reorganized := by
    rw [hlisted]
    exact List.mem_cons_self
  exact ⟨hlisted, ((hiff (txNamed 4 none) (by simp [reorganized])).1 hmem).2.2⟩

end BitcoinIndexer.Views
