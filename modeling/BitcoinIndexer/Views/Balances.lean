import BitcoinIndexer.Chain.CurrentHeight
import BitcoinIndexer.Views.MempoolIds

/-!
# The balance views

Each balance view is there twice: the old one finds out through `block_tx` and `block`
whether a transaction is confirmed, the new one reads `tx.current_height`.  Where that
column says what the tables say, the two add the same to every group, although the old
one has a row for each block a spending transaction is in.
-/

namespace BitcoinIndexer.Views

open BitcoinIndexer.Types
open BitcoinIndexer.Tables
open BitcoinIndexer.KeyedTable
open BitcoinIndexer.Joins
open BitcoinIndexer.CurrentHeight

/-! ## What the views join -/

/-- `input JOIN tx AS input_tx`. -/
def inputTxs (db : Db) : List (InputRow × TxRow) :=
  join (fun input tx => tx.hashId = input.txHashId) db.input db.tx

/-- `input JOIN tx AS input_tx JOIN block_tx AS input_block_tx JOIN block AS input_block`. -/
def inputBlocks (db : Db) : List (((InputRow × TxRow) × BlockTxRow) × BlockRow) :=
  join (fun (_, link) block => block.hashId = link.blockHashId)
    (join (fun (_, tx) link => link.txHashId = tx.hashId) (inputTxs db) db.blockTx) db.block

/-- `output JOIN tx AS output_tx`. -/
def outputTxs (db : Db) : List (OutputRow × TxRow) :=
  join (fun output tx => tx.hashId = output.txHashId) db.output db.tx

/-- `output JOIN tx AS output_tx JOIN block_tx AS output_block_tx JOIN block AS
output_block`. -/
def outputBlocks (db : Db) : List (((OutputRow × TxRow) × BlockTxRow) × BlockRow) :=
  join (fun (_, link) block => block.hashId = link.blockHashId)
    (join (fun (_, tx) link => link.txHashId = tx.hashId) (outputTxs db) db.blockTx) db.block

/-- `block JOIN output ON true JOIN tx AS output_tx`. -/
def blockOutputTxs (db : Db) : List ((BlockRow × OutputRow) × TxRow) :=
  join (fun (_, output) tx => tx.hashId = output.txHashId)
    (join (fun _ _ => true) db.block db.output) db.tx

/-- `block JOIN output ON true JOIN tx AS output_tx JOIN block_tx AS output_block_tx JOIN
block AS output_block`. -/
def blockOutputBlocks (db : Db) :
    List ((((BlockRow × OutputRow) × TxRow) × BlockTxRow) × BlockRow) :=
  join (fun (_, link) block => block.hashId = link.blockHashId)
    (join (fun (_, tx) link => link.txHashId = tx.hashId) (blockOutputTxs db) db.blockTx) db.block

/-- `output.tx_hash_id = input.output_tx_hash_id AND output.tx_idx = input.output_tx_idx`. -/
def spends (output : OutputRow) (input : InputRow) : Bool :=
  output.txHashId = input.outputTxHashId ∧ output.txIdx = input.outputTxIdx

/-- `current_height <= height`, which is not true of `NULL`. -/
def atMost (currentHeight : Option BlockHeight) (height : BlockHeight) : Bool :=
  currentHeight.any fun current => current ≤ height

/-! ## The views -/

def addressBalanceOld (db : Db) : List (Option Address × ℕ) :=
  let rows := leftJoin
    (fun (((output, _), _), _) (((input, _), _), inputBlock) =>
      spends output input ∧ inputBlock.extinct = false)
    (outputBlocks db) (inputBlocks db)
  sumBy ((rows.filter fun ((_, outputBlock), _) => outputBlock.extinct = false).map
    fun ((((output, _), _), _), input) =>
      (output.address, if input.isNone then output.value else 0))

def addressBalance (db : Db) : List (Option Address × ℕ) :=
  let rows := leftJoin
    (fun (output, _) (input, inputTx) => spends output input ∧ inputTx.currentHeight.isSome)
    (outputTxs db) (inputTxs db)
  sumBy ((rows.filter fun ((_, outputTx), _) => outputTx.currentHeight.isSome).map
    fun ((output, _), input) => (output.address, if input.isNone then output.value else 0))

def addressBalanceAtHeightOld (db : Db) : List ((Option Address × BlockHeight) × ℕ) :=
  let rows := leftJoin
    (fun ((((block, output), _), _), _) (((input, _), _), inputBlock) =>
      spends output input ∧ inputBlock.extinct = false ∧ inputBlock.height ≤ block.height)
    (blockOutputBlocks db) (inputBlocks db)
  sumBy ((rows.filter fun (((((block, _), _), _), outputBlock), _) =>
      block.extinct = false ∧ outputBlock.extinct = false).map
    fun (((((block, output), _), _), outputBlock), input) =>
      ((output.address, block.height),
        if outputBlock.height ≤ block.height ∧ input.isNone then output.value else 0))

def addressBalanceAtHeight (db : Db) : List ((Option Address × BlockHeight) × ℕ) :=
  let rows := leftJoin
    (fun ((block, output), _) (input, inputTx) =>
      spends output input ∧ inputTx.currentHeight.isSome ∧
        atMost inputTx.currentHeight block.height)
    (blockOutputTxs db) (inputTxs db)
  sumBy ((rows.filter fun (((block, _), outputTx), _) =>
      block.extinct = false ∧ outputTx.currentHeight.isSome).map
    fun (((block, output), outputTx), input) =>
      ((output.address, block.height),
        if atMost outputTx.currentHeight block.height ∧ input.isNone then output.value else 0))

/-! ## What the new views add up -/

/-- A transaction that is confirmed at one of the heights spends the output. -/
def spentWithin (db : Db) (within : BlockHeight → Bool) (output : OutputRow) : Bool :=
  (inputTxs db).any fun (input, inputTx) => spends output input ∧ inputTx.currentHeight.any within

/-- The heights at which the transaction of an output is confirmed, as `tx` has them. -/
def createdHeights (db : Db) (output : OutputRow) : List BlockHeight :=
  (db.tx.filter fun tx => tx.hashId = output.txHashId).flatMap fun tx => tx.currentHeight.toList

def balanceEntries (db : Db) : List (Option Address × ℕ) :=
  db.output.flatMap fun output => (createdHeights db output).flatMap fun _ =>
    [(output.address, if spentWithin db (fun _ => true) output then 0 else output.value)]

def balanceAtHeightEntries (db : Db) : List ((Option Address × BlockHeight) × ℕ) :=
  db.block.flatMap fun block => db.output.flatMap fun output =>
    (createdHeights db output).flatMap fun created =>
      if block.extinct = false then
        [((output.address, block.height),
          if spentWithin db (fun spent => spent ≤ block.height) output then 0
          else if created ≤ block.height then output.value else 0)]
      else []

variable {db : Db}

theorem addressBalance_perm (db : Db) : (addressBalance db).Perm (sumBy (balanceEntries db)) := by
  apply SameSums.sumBy_perm
  rw [map_filter_eq_flatMap, flatMap_leftJoin, outputTxs, flatMap_join, balanceEntries]
  apply SameSums.flatMap
  intro output _
  rw [createdHeights, List.flatMap_assoc]
  apply SameSums.flatMap
  intro outputTx _
  cases hcreated : outputTx.currentHeight with
  | none => simp [hcreated]
  | some created =>
      have hspent : (inputTxs db).any (fun row => spends output row.1 ∧ row.2.currentHeight.isSome) =
          spentWithin db (fun _ => true) output := rfl
      simp only [hcreated, Option.isSome_some, if_true, Option.toList_some, List.flatMap_cons,
        List.flatMap_nil, List.append_nil]
      rw [← hspent]
      apply SameSums.partners
      · rfl
      · intro _
        rfl

theorem addressBalanceAtHeight_perm (db : Db) :
    (addressBalanceAtHeight db).Perm (sumBy (balanceAtHeightEntries db)) := by
  apply SameSums.sumBy_perm
  rw [map_filter_eq_flatMap, flatMap_leftJoin, blockOutputTxs, flatMap_join, flatMap_join,
    balanceAtHeightEntries]
  apply SameSums.flatMap
  intro block _
  simp only [List.filter_true]
  apply SameSums.flatMap
  intro output _
  rw [createdHeights, List.flatMap_assoc]
  apply SameSums.flatMap
  intro outputTx _
  cases outputTx.currentHeight with
  | none => simp
  | some created =>
      have hspent : (inputTxs db).any (fun row => spends output row.1 ∧
          row.2.currentHeight.isSome ∧ atMost row.2.currentHeight block.height) =
            spentWithin db (fun spent => spent ≤ block.height) output := by
        rw [spentWithin]
        congr 1
        funext row
        obtain ⟨input, inputTx⟩ := row
        cases hcurrent : inputTx.currentHeight <;> simp [hcurrent, atMost]
      simp only [Option.isSome_some, and_true, Option.toList_some, List.flatMap_cons,
        List.flatMap_nil, List.append_nil]
      by_cases hextinct : block.extinct = false
      · simp only [hextinct, decide_true, if_true]
        rw [← hspent]
        apply SameSums.partners
        · simp [atMost]
        · simp
      · simp [hextinct]

/-! ## What the tables say about a transaction -/

/-- The unique keys: those of `block`, which exist in every mode, and those of normal mode. -/
structure UniqueKeys (db : Db) : Prop where
  block : Keyed blockClash db.block
  normal : keysUnique .normal db

theorem UniqueKeys.block_eq (h : UniqueKeys db) {left right : BlockRow} (hleft : left ∈ db.block)
    (hright : right ∈ db.block) (hclash : blockClash left right = true) : left = right := by
  have hsymmetric : Std.Symm fun old new : BlockRow => blockClash new old = false := by
    constructor
    intro old new hfalse
    simp only [blockClash, decide_eq_false_iff_not] at hfalse ⊢
    intro hor
    apply hfalse
    exact hor.imp Eq.symm fun hboth => ⟨hboth.1.symm, hboth.2.2, hboth.2.1⟩
  by_contra hne
  have hkeyed := h.block.forall hright hleft (Ne.symm hne)
  rw [hkeyed] at hclash
  cases hclash

theorem UniqueKeys.block_eq_of_height (h : UniqueKeys db) {left right : BlockRow}
    (hleft : left ∈ db.block) (hright : right ∈ db.block) (hextinct : left.extinct = false)
    (hextinct' : right.extinct = false) (hheight : left.height = right.height) : left = right :=
  h.block_eq hleft hright (decide_eq_true (.inr ⟨hheight, hextinct, hextinct'⟩))

theorem UniqueKeys.nodup_block (h : UniqueKeys db) : db.block.Nodup := by
  apply h.block.imp
  rintro row _ hclash rfl
  simp [blockClash] at hclash

/-- The height of a block, unless it is extinct. -/
def liveHeights (db : Db) (hashId : HashId) : List BlockHeight :=
  (db.block.filter fun block => block.extinct = false ∧ block.hashId = hashId).map (·.height)

/-- The heights of the non-extinct blocks that `block_tx` puts a transaction in. -/
def minedHeights (db : Db) (hashId : HashId) : List BlockHeight :=
  (db.blockTx.filter fun link => link.txHashId = hashId).flatMap fun link =>
    liveHeights db link.blockHashId

theorem mem_liveHeights {hashId : HashId} {height : BlockHeight} :
    height ∈ liveHeights db hashId ↔
      ∃ row ∈ db.block, row.hashId = hashId ∧ row.extinct = false ∧ row.height = height := by
  simp only [liveHeights, List.mem_map, List.mem_filter, decide_eq_true_iff]
  constructor
  · rintro ⟨row, ⟨hrow, hextinct, hhash⟩, hheight⟩
    exact ⟨row, hrow, hhash, hextinct, hheight⟩
  · rintro ⟨row, hrow, hhash, hextinct, hheight⟩
    exact ⟨row, ⟨hrow, hextinct, hhash⟩, hheight⟩

theorem mem_minedHeights {hashId : HashId} {height : BlockHeight} :
    height ∈ minedHeights db hashId ↔ MinedAt db hashId height := by
  simp only [minedHeights, MinedAt, List.mem_flatMap, mem_liveHeights, List.mem_filter,
    decide_eq_true_iff]
  constructor
  · rintro ⟨link, ⟨hlink, htx⟩, row, hrow, hhash, hrest⟩
    exact ⟨link, hlink, row, hrow, htx, hhash.symm, hrest⟩
  · rintro ⟨link, hlink, row, hrow, htx, hhash, hrest⟩
    exact ⟨link, ⟨hlink, htx⟩, row, hrow, hhash.symm, hrest⟩

/-- The joins with `block_tx` and `block`, and the condition that the block is not extinct. -/
theorem flatMap_minedHeights {γ : Type} (hashId : HashId) (f : BlockHeight → List γ) :
    ((db.blockTx.filter fun link => link.txHashId = hashId).flatMap fun link =>
      (db.block.filter fun block => block.hashId = link.blockHashId).flatMap fun block =>
        if block.extinct = false then f block.height else []) =
      (minedHeights db hashId).flatMap f := by
  rw [minedHeights, List.flatMap_assoc]
  congr 1
  funext link
  simp only [liveHeights, List.flatMap_map, Bool.decide_and]
  rw [← List.filter_filter, flatMap_filter (fun block : BlockRow => block.extinct = false)]
  simp only [decide_eq_true_iff]

theorem UniqueKeys.nodup_liveHeights (h : UniqueKeys db) (hashId : HashId) :
    (liveHeights db hashId).Nodup := by
  apply (h.nodup_block.filter _).map_on
  intro left hleft right hright hheight
  simp only [List.mem_filter, decide_eq_true_iff] at hleft hright
  exact h.block_eq_of_height hleft.1 hright.1 hleft.2.1 hright.2.1 hheight

theorem UniqueKeys.nodup_minedHeights (h : UniqueKeys db) (hashId : HashId) :
    (minedHeights db hashId).Nodup := by
  rw [minedHeights, List.nodup_flatMap]
  refine ⟨fun link _ => h.nodup_liveHeights link.blockHashId, ?_⟩
  have hlinks := List.pairwise_map.1 (h.normal.2 rfl).1
  apply (hlinks.filter _).imp_of_mem
  intro left right hleft hright hne height hinLeft hinRight
  simp only [List.mem_filter, decide_eq_true_iff] at hleft hright
  obtain ⟨row, hrow, hhash, hextinct, hheight⟩ := mem_liveHeights.1 hinLeft
  obtain ⟨other, hother, hhash', hextinct', hheight'⟩ := mem_liveHeights.1 hinRight
  have heq := h.block_eq_of_height hrow hother hextinct hextinct' (hheight.trans hheight'.symm)
  apply hne
  rw [hleft.2, hright.2, ← hhash, ← hhash', heq]

theorem UniqueKeys.minedHeights_eq (h : UniqueKeys db) (hcurrent : CurrentHeightTrue db)
    {tx : TxRow} (hmem : tx ∈ db.tx) : minedHeights db tx.hashId = tx.currentHeight.toList := by
  have hsame : ∀ height, height ∈ minedHeights db tx.hashId ↔ height ∈ tx.currentHeight.toList := by
    intro height
    rw [mem_minedHeights, ← hcurrent tx hmem height, Option.mem_toList]
  have hperm := (List.perm_ext_iff_of_nodup (h.nodup_minedHeights tx.hashId)
    (Option.toList_nodup tx.currentHeight)).2 hsame
  cases hheight : tx.currentHeight with
  | none =>
      rw [hheight] at hperm
      exact hperm.eq_nil
  | some height =>
      rw [hheight] at hperm
      exact List.perm_singleton.1 hperm

theorem currentHeightTrue_of_minedHeights
    (h : ∀ tx ∈ db.tx, minedHeights db tx.hashId = tx.currentHeight.toList) :
    CurrentHeightTrue db := by
  intro tx hmem height
  rw [← mem_minedHeights, h tx hmem, Option.mem_toList]

/-! ## What the old views add up -/

section Old

variable (h : UniqueKeys db) (hcurrent : CurrentHeightTrue db)

include hcurrent in
/-- A spending transaction is in a non-extinct block exactly at its current height. -/
theorem any_inputBlocks (within : BlockHeight → Bool) (output : OutputRow) :
    (inputBlocks db).any (fun (((input, _), _), block) =>
      spends output input ∧ block.extinct = false ∧ within block.height) =
        spentWithin db within output := by
  rw [Bool.eq_iff_iff, spentWithin, List.any_eq_true, List.any_eq_true]
  simp only [inputBlocks, inputTxs, Prod.exists, mem_join, decide_eq_true_iff, Option.any_eq_true]
  constructor
  · rintro ⟨input, tx, link, block, ⟨⟨⟨hinput, htx, hid⟩, hlink, htxid⟩, hblock, hhash⟩, hspends,
      hextinct, hwithin⟩
    have hmined : MinedAt db tx.hashId block.height :=
      ⟨link, hlink, block, hblock, htxid, hhash.symm, hextinct, rfl⟩
    exact ⟨input, tx, ⟨hinput, htx, hid⟩, hspends, block.height, (hcurrent tx htx _).2 hmined,
      hwithin⟩
  · rintro ⟨input, tx, ⟨hinput, htx, hid⟩, hspends, height, hheight, hwithin⟩
    obtain ⟨link, hlink, block, hblock, htxid, hhash, hextinct, rfl⟩ :=
      (hcurrent tx htx height).1 hheight
    exact ⟨input, tx, link, block, ⟨⟨⟨hinput, htx, hid⟩, hlink, htxid⟩, hblock, hhash.symm⟩, hspends,
      hextinct, hwithin⟩

include h hcurrent

theorem addressBalanceOld_perm :
    (addressBalanceOld db).Perm (sumBy (balanceEntries db)) := by
  apply SameSums.sumBy_perm
  rw [map_filter_eq_flatMap, flatMap_leftJoin, outputBlocks, flatMap_join, flatMap_join, outputTxs,
    flatMap_join, balanceEntries]
  apply SameSums.flatMap
  intro output _
  rw [createdHeights, List.flatMap_assoc]
  apply SameSums.flatMap
  intro outputTx hmem
  rw [← h.minedHeights_eq hcurrent (List.mem_filter.1 hmem).1, ← flatMap_minedHeights]
  apply SameSums.flatMap
  intro link _
  apply SameSums.flatMap
  intro block _
  by_cases hextinct : block.extinct = false
  · have hspent := any_inputBlocks hcurrent (fun _ => true) output
    simp only [and_true] at hspent
    simp only [hextinct, decide_true, if_true]
    rw [← hspent]
    apply SameSums.partners
    · rfl
    · intro _
      rfl
  · simp [hextinct]

theorem addressBalanceAtHeightOld_perm :
    (addressBalanceAtHeightOld db).Perm (sumBy (balanceAtHeightEntries db)) := by
  apply SameSums.sumBy_perm
  rw [map_filter_eq_flatMap, flatMap_leftJoin, blockOutputBlocks, flatMap_join, flatMap_join,
    blockOutputTxs, flatMap_join, flatMap_join, balanceAtHeightEntries]
  apply SameSums.flatMap
  intro block _
  simp only [List.filter_true]
  apply SameSums.flatMap
  intro output _
  rw [createdHeights, List.flatMap_assoc]
  apply SameSums.flatMap
  intro outputTx hmem
  rw [← h.minedHeights_eq hcurrent (List.mem_filter.1 hmem).1, ← flatMap_minedHeights]
  apply SameSums.flatMap
  intro link _
  apply SameSums.flatMap
  intro outputBlock _
  have hspent := any_inputBlocks hcurrent (fun spent => spent ≤ block.height) output
  simp only [decide_eq_true_iff] at hspent
  by_cases hextinct : block.extinct = false
  · by_cases hcreated : outputBlock.extinct = false
    · simp only [hextinct, hcreated, decide_true, if_true, and_self]
      rw [← hspent]
      apply SameSums.partners
      · simp
      · simp
    · simp [hcreated]
  · simp [hextinct]

end Old

/-- The new views return the rows of the old ones. -/
theorem new_views_agree (db : Db) (hkeys : UniqueKeys db) (hcurrent : CurrentHeightTrue db) :
    (addressBalance db).Perm (addressBalanceOld db) ∧
      (addressBalanceAtHeight db).Perm (addressBalanceAtHeightOld db) :=
  ⟨(addressBalance_perm db).trans (addressBalanceOld_perm hkeys hcurrent).symm,
    (addressBalanceAtHeight_perm db).trans (addressBalanceAtHeightOld_perm hkeys hcurrent).symm⟩

theorem reorganized_keys : UniqueKeys reorganized where
  block := by
    unfold Keyed
    decide
  normal := by decide

theorem reorganized_currentHeight : CurrentHeightTrue reorganized :=
  currentHeightTrue_of_minedHeights (by decide)

theorem new_views_agree_reorganized :
    addressBalance reorganized = [(addressNamed "a", 0), (none, 7), (addressNamed "b", 30)] ∧
      (addressBalance reorganized).Perm (addressBalanceOld reorganized) ∧
      (addressBalanceAtHeight reorganized).Perm (addressBalanceAtHeightOld reorganized) :=
  ⟨by decide, new_views_agree reorganized reorganized_keys reorganized_currentHeight⟩

end BitcoinIndexer.Views
