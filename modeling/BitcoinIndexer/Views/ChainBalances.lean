import BitcoinIndexer.Chain.StoredTables
import BitcoinIndexer.Fees.StoredOutputs
import BitcoinIndexer.Mempool.Variants
import BitcoinIndexer.Views.Replay

/-!
# The balances of the chain

What the balance views say about a stored chain, in terms of its blocks: an address has
what the outputs paid to it are worth that no transaction of the chain spends.  The old views
say so whatever `current_height` says, the new ones where it is true.
-/

namespace BitcoinIndexer.ChainBalances

open BitcoinIndexer.Types
open BitcoinIndexer.Tables
open BitcoinIndexer.Formatter
open BitcoinIndexer.ReferenceChain
open BitcoinIndexer.StoredRows
open BitcoinIndexer.Representation
open BitcoinIndexer.ChainState
open BitcoinIndexer.MinedTransactions
open BitcoinIndexer.CurrentHeight
open BitcoinIndexer.UniqueKeys
open BitcoinIndexer.StoredTables
open BitcoinIndexer.Fees
open BitcoinIndexer.Variants
open BitcoinIndexer.Joins
open BitcoinIndexer.Views

/-- The outputs that the blocks create and do not spend. -/
def unspentIn (network : Network) (blocks : List BlockData) : List OutputRow :=
  (outputsIn network blocks).filter fun row => rowPoint row ∉ spent (txsOf network blocks)

def balanceOf (network : Network) (blocks : List BlockData) (address : Option Address) : ℕ :=
  amount address (unspentIn network blocks)

/-- The blocks have an output of the address. -/
def Paid (network : Network) (blocks : List BlockData) (address : Option Address) : Prop :=
  ∃ row ∈ outputsIn network blocks, row.address = address

structure TellsBalances (network : Network) (chain : List BlockData)
    (view : List (Option Address × ℕ)) : Prop where
  nodup : (view.map Prod.fst).Nodup
  rows : ∀ address value, (address, value) ∈ view ↔
    Paid network chain address ∧ value = balanceOf network chain address

/-- At every height of the chain the view has the balances there, also of the addresses
that are paid above it only. -/
structure TellsBalancesAtHeight (network : Network) (chain : List BlockData)
    (view : List ((Option Address × BlockHeight) × ℕ)) : Prop where
  nodup : (view.map Prod.fst).Nodup
  rows : ∀ address height value, ((address, height), value) ∈ view ↔
    height < chain.length ∧ Paid network chain address ∧
      value = balanceOf network (chain.take (height + 1)) address

variable {network : Network} {known chain : List BlockData} {db : Db} {t : BlockTree}
variable {given : Set BlockData} {height : BlockHeight} {hashId : HashId}
variable {address : Option Address}

theorem TellsBalances.perm {view other : List (Option Address × ℕ)}
    (h : TellsBalances network chain view) (hperm : other.Perm view) :
    TellsBalances network chain other where
  nodup := (hperm.map Prod.fst).nodup_iff.2 h.nodup
  rows := fun address value => hperm.mem_iff.trans (h.rows address value)

theorem TellsBalancesAtHeight.perm {view other : List ((Option Address × BlockHeight) × ℕ)}
    (h : TellsBalancesAtHeight network chain view) (hperm : other.Perm view) :
    TellsBalancesAtHeight network chain other where
  nodup := (hperm.map Prod.fst).nodup_iff.2 h.nodup
  rows := fun address height value => hperm.mem_iff.trans (h.rows address height value)

/-! ## The heights that the old views find -/

def confirmedIn (db : Db) (row : TxRow) : TxRow :=
  { row with currentHeight := (minedHeights db row.hashId).head? }

/-- The tables with `current_height` as `block_tx` and `block` have it. -/
def confirmed (db : Db) : Db := { db with tx := db.tx.map (confirmedIn db) }

theorem inputBlocks_confirmed (db : Db) : inputBlocks (confirmed db) =
    (inputBlocks db).map (Prod.map (Prod.map (Prod.map id (confirmedIn db)) id) id) := by
  have htxs : inputTxs (confirmed db) = (inputTxs db).map (Prod.map id (confirmedIn db)) :=
    join_map_right
  rw [inputBlocks, htxs, join_map_left, join_map_left]
  rfl

theorem outputBlocks_confirmed (db : Db) : outputBlocks (confirmed db) =
    (outputBlocks db).map (Prod.map (Prod.map (Prod.map id (confirmedIn db)) id) id) := by
  have htxs : outputTxs (confirmed db) = (outputTxs db).map (Prod.map id (confirmedIn db)) :=
    join_map_right
  rw [outputBlocks, htxs, join_map_left, join_map_left]
  rfl

theorem blockOutputBlocks_confirmed (db : Db) : blockOutputBlocks (confirmed db) =
    (blockOutputBlocks db).map (Prod.map (Prod.map (Prod.map id (confirmedIn db)) id) id) := by
  have htxs : blockOutputTxs (confirmed db) =
      (blockOutputTxs db).map (Prod.map id (confirmedIn db)) := join_map_right
  rw [blockOutputBlocks, htxs, join_map_left, join_map_left]
  rfl

/-- The old views do not read `current_height`. -/
theorem addressBalanceOld_confirmed (db : Db) :
    addressBalanceOld (confirmed db) = addressBalanceOld db := by
  simp only [addressBalanceOld]
  rw [inputBlocks_confirmed, outputBlocks_confirmed, leftJoin_map, List.filter_map, List.map_map]
  congr 2
  funext row
  simp

theorem addressBalanceAtHeightOld_confirmed (db : Db) :
    addressBalanceAtHeightOld (confirmed db) = addressBalanceAtHeightOld db := by
  simp only [addressBalanceAtHeightOld]
  rw [inputBlocks_confirmed, blockOutputBlocks_confirmed, leftJoin_map, List.filter_map,
    List.map_map]
  congr 2
  funext row
  simp

theorem map_hashId_confirmed (db : Db) :
    (confirmed db).tx.map (·.hashId) = db.tx.map (·.hashId) := by
  rw [confirmed, List.map_map]
  rfl

theorem uniqueKeys_confirmed (h : UniqueKeys db) : UniqueKeys (confirmed db) where
  block := h.block
  normal := by
    rw [keysUnique, map_hashId_confirmed]
    exact h.normal

/-- Where no transaction is at two heights, the heights are true. -/
theorem currentHeightTrue_confirmed (hkeys : UniqueKeys db)
    (honce : ∀ hashId level height, MinedAt db hashId level → MinedAt db hashId height →
      level = height) : CurrentHeightTrue (confirmed db) := by
  apply currentHeightTrue_of_minedHeights
  intro row hmem
  obtain ⟨old, hold, rfl⟩ := List.mem_map.1 hmem
  change minedHeights db old.hashId = (minedHeights db old.hashId).head?.toList
  have hnodup := hkeys.nodup_minedHeights old.hashId
  have hmined : ∀ height ∈ minedHeights db old.hashId, MinedAt db old.hashId height :=
    fun height hin => mem_minedHeights.1 hin
  cases hheights : minedHeights db old.hashId with
  | nil => rfl
  | cons first rest =>
      rw [hheights] at hnodup hmined
      cases rest with
      | nil => rfl
      | cons second rest =>
          have heq := honce old.hashId first second (hmined first (by simp))
            (hmined second (by simp))
          simp [heq] at hnodup

theorem holds_confirmed (h : Holds network known db) : Holds network known (confirmed db) where
  blockTx := h.blockTx
  tx := by
    intro row hmem
    obtain ⟨old, hold, rfl⟩ := List.mem_map.1 hmem
    obtain ⟨tx, htx, htells⟩ := h.tx old hold
    exact ⟨tx, htx, htells.atHeight _⟩
  txKeys := fun hashId => map_hashId_confirmed db ▸ h.txKeys hashId
  output := h.output
  outputKeys := h.outputKeys
  input := h.input
  inputKeys := h.inputKeys

/-! ## A stored chain -/

def seenIn (given : Set BlockData) (network : Network) : Set NamedTx :=
  {tx | ∃ block ∈ given, tx ∈ block.txs network}

/-- What a node promises about its blocks, and tables that show some of them. -/
structure Shown (given : Set BlockData) (network : Network) (t : BlockTree) (db : Db) : Prop where
  distinct : Distinct given network
  determined : Determined (seenIn given network)
  known : ∀ block ∈ t.known, block ∈ given
  shows : Shows t.known t.chain db
  holds : Holds network t.known db
  keys : keysUnique .normal db

namespace Shown

variable (h : Shown given network t db)
include h

theorem uniqueKeys : UniqueKeys db where
  block := by
    rw [h.shows.rows]
    exact keyed_rows t.distinct t.linked
  normal := h.keys

theorem confirmed : Shown given network t (confirmed db) where
  distinct := h.distinct
  determined := h.determined
  known := h.known
  shows := ⟨h.shows.rows, h.shows.logged.congr rfl le_rfl⟩
  holds := holds_confirmed h.holds
  keys := (uniqueKeys_confirmed h.uniqueKeys).normal

theorem chain_given : ∀ block ∈ t.chain, block ∈ given :=
  fun block hmem => h.known block (t.stored block hmem)

theorem seen {blocks : List BlockData} (hsub : blocks ⊆ t.known) :
    ∀ tx ∈ txsOf network blocks, tx ∈ seenIn given network := by
  intro tx hmem
  obtain ⟨block, hblock, htx⟩ := List.mem_flatMap.1 hmem
  exact ⟨block, h.known block (hsub hblock), htx⟩

theorem mined_once {level : BlockHeight} (hlevel : OnChain network t.chain hashId level)
    (hheight : OnChain network t.chain hashId height) : level = height := by
  obtain ⟨left, hleft, rfl, hinLeft⟩ := hlevel
  obtain ⟨right, hright, rfl, hinRight⟩ := hheight
  rw [h.distinct.block_eq h.chain_given t.linked hleft hright hinLeft hinRight]

theorem minedAt_iff : MinedAt db hashId height ↔ OnChain network t.chain hashId height :=
  CurrentHeight.minedAt_iff h.shows h.holds.blockTx

theorem currentHeightTrue_confirmed : CurrentHeightTrue (ChainBalances.confirmed db) :=
  ChainBalances.currentHeightTrue_confirmed h.uniqueKeys fun _ _ _ hlevel hheight =>
    h.mined_once (h.minedAt_iff.1 hlevel) (h.minedAt_iff.1 hheight)

/-- Transactions with the same leading bytes create and spend the same outputs. -/
theorem agree {left right : NamedTx} (hleft : left ∈ txsOf network t.known)
    (hright : right ∈ txsOf network t.known) (hid : hashToHashId left.1 = hashToHashId right.1) :
    outputRows network left = outputRows network right ∧
      (inputRows left).map inputKey = (inputRows right).map inputKey := by
  obtain ⟨htxid, hagree⟩ := h.determined.of_hashId (h.seen (List.Subset.refl _) left hleft)
    (h.seen (List.Subset.refl _) right hright) hid
  exact ⟨outputRows_agree htxid hagree, inputKeys_agree htxid hagree⟩

theorem mem_output_iff {row : OutputRow} : row ∈ db.output ↔ row ∈ outputsIn network t.known := by
  refine ⟨h.holds.output row, fun hmem => ?_⟩
  obtain ⟨other, hother, hkey⟩ :=
    List.mem_map.1 ((h.holds.outputKeys _).2 (List.mem_map_of_mem hmem))
  obtain ⟨tx, htx, hrow⟩ := List.mem_flatMap.1 hmem
  obtain ⟨otherTx, hotherTx, hotherRow⟩ := List.mem_flatMap.1 (h.holds.output other hother)
  have hid : hashToHashId otherTx.1 = hashToHashId tx.1 := by
    rw [← owner_output hotherRow, ← owner_output hrow]
    exact congrArg Prod.fst hkey
  rw [(h.agree hotherTx htx hid).1] at hotherRow
  exact outputRows_key hotherRow hrow hkey ▸ hother

end Shown

/-! ## What is unspent at a height -/

theorem spends_of_key {output : OutputRow} {left right : InputRow}
    (hkey : inputKey left = inputKey right) : spends output left = spends output right := by
  obtain ⟨hid, hrest⟩ := Prod.mk.inj hkey
  rw [spends, spends, hid, (Prod.mk.inj hrest).1]

/-- A transaction spends the outputs that its rows in `input` name. -/
theorem exists_spends_iff {tx : NamedTx} {output : OutputRow} :
    (∃ input ∈ inputRows tx, spends output input = true) ↔ rowPoint output ∈ spentBy tx.2 := by
  rw [inputRows, spentBy]
  split
  · simp
  · simp only [List.mem_map, exists_exists_and_eq_and, spends_iff]
    apply exists_congr
    intro input
    apply and_congr_right
    intro _
    rw [rowPoint, HashIdOutPoint.ofOutPoint, HashIdOutPoint.mk.injEq]
    exact ⟨fun hsame => ⟨hsame.1.symm, hsame.2.symm⟩, fun hsame => ⟨hsame.1.symm, hsame.2.symm⟩⟩

/-- A transaction is on the chain up to a height. -/
theorem exists_onChain_iff : (∃ level ≤ height, OnChain network t.chain hashId level) ↔
    ∃ tx ∈ txsOf network (t.chain.take (height + 1)), hashToHashId tx.1 = hashId := by
  simp only [txsOf, List.mem_flatMap, mem_take_iff t.linked, OnChain, txHashIds, List.mem_map]
  constructor
  · rintro ⟨_, hle, block, hblock, rfl, tx, htx, hid⟩
    exact ⟨tx, ⟨block, ⟨hblock, Nat.lt_succ_of_le hle⟩, htx⟩, hid⟩
  · rintro ⟨tx, ⟨block, ⟨hblock, hlt⟩, htx⟩, hid⟩
    exact ⟨block.height, Nat.le_of_lt_succ hlt, block, hblock, rfl, tx, htx, hid⟩

theorem lt_of_onChain (hon : OnChain network t.chain hashId height) : height < t.chain.length := by
  obtain ⟨block, hblock, rfl, -⟩ := hon
  exact height_lt_of_mem t.linked hblock

theorem txsOf_take_subset :
    txsOf network (t.chain.take (height + 1)) ⊆ txsOf network t.known :=
  txsOf_subset fun block hmem => t.stored block (List.mem_of_mem_take hmem)

namespace Shown

variable (h : Shown given network t db) (hcurrent : CurrentHeightTrue db)
include h

theorem mem_outputsIn_take {output : OutputRow} :
    output ∈ outputsIn network (t.chain.take (height + 1)) ↔ output ∈ db.output ∧
      ∃ tx ∈ txsOf network (t.chain.take (height + 1)), hashToHashId tx.1 = output.txHashId := by
  rw [h.mem_output_iff]
  constructor
  · intro hmem
    obtain ⟨tx, htx, hrow⟩ := List.mem_flatMap.1 hmem
    exact ⟨List.mem_flatMap.2 ⟨tx, txsOf_take_subset htx, hrow⟩, tx, htx,
      (owner_output hrow).symm⟩
  · rintro ⟨hmem, tx, htx, hid⟩
    obtain ⟨own, hown, hrow⟩ := List.mem_flatMap.1 hmem
    have hsame := (h.agree hown (txsOf_take_subset htx)
      ((owner_output hrow).symm.trans hid.symm)).1
    exact List.mem_flatMap.2 ⟨tx, htx, hsame ▸ hrow⟩

/-- The rows of `input` that name an output, of transactions on the chain. -/
theorem exists_input_iff {output : OutputRow} :
    (∃ input ∈ db.input, spends output input = true ∧
      ∃ tx ∈ txsOf network (t.chain.take (height + 1)), hashToHashId tx.1 = input.txHashId) ↔
    rowPoint output ∈ spent (txsOf network (t.chain.take (height + 1))) := by
  rw [spent, List.mem_flatMap]
  constructor
  · rintro ⟨input, hinput, hspends, tx, htx, hid⟩
    obtain ⟨own, hown, hrow⟩ := List.mem_flatMap.1 (h.holds.input input hinput)
    have hkeys := (h.agree hown (txsOf_take_subset htx)
      ((owner_input hrow).symm.trans hid.symm)).2
    obtain ⟨other, hother, hkey⟩ := List.mem_map.1 (hkeys ▸ List.mem_map_of_mem hrow)
    exact ⟨tx, htx, exists_spends_iff.1 ⟨other, hother, (spends_of_key hkey).trans hspends⟩⟩
  · rintro ⟨tx, htx, hpoint⟩
    obtain ⟨row, hrow, hspends⟩ := exists_spends_iff.2 hpoint
    have hin : row ∈ inputsIn network t.known :=
      List.mem_flatMap.2 ⟨tx, txsOf_take_subset htx, hrow⟩
    obtain ⟨input, hinput, hkey⟩ :=
      List.mem_map.1 ((h.holds.inputKeys _).2 (List.mem_map_of_mem hin))
    have howner : input.txHashId = row.txHashId := (Prod.mk.inj (Prod.mk.inj hkey).2).2
    exact ⟨input, hinput, (spends_of_key hkey).trans hspends, tx, htx,
      ((owner_input hrow).symm.trans howner.symm)⟩

theorem exists_live_iff :
    (∃ block ∈ db.block, block.extinct = false ∧ block.height = height) ↔ height < t.chain.length := by
  rw [h.shows.rows]
  constructor
  · rintro ⟨row, hrow, hextinct, rfl⟩
    obtain ⟨block, -, rfl⟩ := List.mem_map.1 hrow
    exact height_lt_of_mem t.linked ((rowIn_extinct t.chain block).1 hextinct)
  · intro hlt
    have hget := List.getElem?_eq_getElem hlt
    have hmem := List.mem_of_getElem? hget
    exact ⟨rowIn t.chain t.chain[height], List.mem_map_of_mem (t.stored _ hmem),
      (rowIn_extinct t.chain _).2 hmem, height_of_getElem t.linked hget⟩

include hcurrent

theorem current_iff :
    (∃ tx ∈ db.tx, tx.hashId = hashId ∧ tx.currentHeight = some height) ↔
      OnChain network t.chain hashId height := by
  rw [← h.minedAt_iff]
  constructor
  · rintro ⟨tx, htx, rfl, hheight⟩
    exact (hcurrent tx htx height).1 hheight
  · intro hmined
    obtain ⟨block, hblock, -, hin⟩ := h.minedAt_iff.1 hmined
    have hknown := t.stored block hblock
    obtain ⟨tx, htx, rfl⟩ := List.mem_map.1 ((h.holds.txKeys hashId).2 ⟨block, hknown, hin⟩)
    exact ⟨tx, htx, rfl, (hcurrent tx htx height).2 hmined⟩

theorem createdWithin_iff {output : OutputRow} : createdWithin db height output = true ↔
    ∃ tx ∈ txsOf network (t.chain.take (height + 1)), hashToHashId tx.1 = output.txHashId := by
  simp only [createdWithin, List.any_eq_true, mem_createdHeights, h.current_iff hcurrent,
    decide_eq_true_iff]
  rw [← exists_onChain_iff]
  exact exists_congr fun level => and_comm

theorem spentWithin_iff {output : OutputRow} :
    spentWithin db (fun spent => spent ≤ height) output = true ↔
      rowPoint output ∈ spent (txsOf network (t.chain.take (height + 1))) := by
  rw [← h.exists_input_iff, Views.spentWithin_iff]
  apply exists_congr
  intro input
  rw [← exists_onChain_iff]
  simp only [Option.any_eq_true, decide_eq_true_iff, ← h.current_iff hcurrent]
  constructor
  · rintro ⟨hinput, hspends, tx, htx, hid, level, hlevel, hle⟩
    exact ⟨hinput, hspends, level, hle, tx, htx, hid, hlevel⟩
  · rintro ⟨hinput, hspends, level, hle, tx, htx, hid, hlevel⟩
    exact ⟨hinput, hspends, tx, htx, hid, level, hlevel, hle⟩

/-- The tables leave the same outputs unspent as the blocks. -/
theorem unspentAt_perm (height : BlockHeight) :
    (unspentAt db height).Perm (unspentIn network (t.chain.take (height + 1))) := by
  have hgiven : ∀ block ∈ [] ++ t.chain.take (height + 1), block ∈ given :=
    fun block hmem => h.chain_given block (List.mem_of_mem_take hmem)
  have hids := flatMap_txHashIds_nodup h.distinct hgiven (t.linked.take (height + 1))
  have hrows : ((rowsOf network ∅ (t.chain.take (height + 1))).output.map outputKey).Nodup :=
    output_nodup hids
  rw [output_rows_eq] at hrows
  apply (List.perm_ext_iff_of_nodup ((h.keys.1 (by simp)).of_map.filter _)
    (hrows.of_map.filter _)).2
  intro output
  simp only [List.mem_filter, Bool.and_eq_true, Bool.not_eq_true',
    decide_eq_true_iff, h.mem_outputsIn_take, h.createdWithin_iff hcurrent, and_assoc]
  rw [← h.spentWithin_iff hcurrent, Bool.not_eq_true]

/-- The addresses of the view are those that the chain pays. -/
theorem received_iff : Received db address ↔ Paid network t.chain address := by
  have hall : t.chain.take (t.chain.length + 1) = t.chain := List.take_of_length_le (Nat.le_succ _)
  rw [← hall, Paid, Received]
  apply exists_congr
  intro output
  rw [h.mem_outputsIn_take, ← exists_onChain_iff]
  constructor
  · rintro ⟨hmem, haddress, tx, htx, hid, hheight⟩
    obtain ⟨level, hlevel⟩ := Option.ne_none_iff_exists'.1 hheight
    have hon := (h.current_iff hcurrent).1 ⟨tx, htx, hid, hlevel⟩
    exact ⟨⟨hmem, level, (lt_of_onChain hon).le, hon⟩, haddress⟩
  · rintro ⟨⟨hmem, level, -, hon⟩, haddress⟩
    obtain ⟨tx, htx, hid, hheight⟩ := (h.current_iff hcurrent).2 hon
    exact ⟨hmem, haddress, tx, htx, hid, by simp [hheight]⟩

theorem tellsBalancesAtHeight :
    TellsBalancesAtHeight network t.chain (sumBy (balanceAtHeightEntries db)) where
  nodup := nodup_map_fst_sumBy _
  rows := by
    intro address height value
    rw [mem_sumBy, mem_keys_balanceAtHeightEntries, h.received_iff hcurrent,
      h.exists_live_iff, and_assoc]
    apply and_congr_right
    intro hlt
    obtain ⟨block, hblock, hextinct, rfl⟩ := h.exists_live_iff.2 hlt
    rw [h.uniqueKeys.total_balanceAtHeightEntries hblock hextinct,
      amount_perm (h.unspentAt_perm hcurrent block.height)]
    rfl

end Shown

/-- Where every confirmed transaction is at a height or below, nothing is above it. -/
theorem total_balanceEntries_of_le (hkeys : UniqueKeys db)
    (hbelow : ∀ tx ∈ db.tx, ∀ level, tx.currentHeight = some level → level ≤ height) :
    total address (balanceEntries db) = amount address (unspentAt db height) := by
  have hspent : ∀ output, spentWithin db (fun _ => true) output =
      spentWithin db (fun spent => spent ≤ height) output := by
    intro output
    rw [Bool.eq_iff_iff, Views.spentWithin_iff, Views.spentWithin_iff]
    apply exists_congr
    intro input
    apply and_congr_right
    intro _
    apply and_congr_right
    intro _
    apply exists_congr
    intro tx
    apply and_congr_right
    intro htx
    apply and_congr_right
    intro _
    rw [Option.any_eq_true, Option.any_eq_true]
    exact exists_congr fun level => and_congr_right fun hlevel => by
      simp [hbelow tx htx level hlevel]
  rw [balanceEntries, total_flatMap, unspentAt, amount_filter]
  congr 1
  apply List.map_congr_left
  intro output _
  rw [hspent]
  obtain hnone | ⟨created, hcreated⟩ := hkeys.createdHeights_cases output
  · simp [hnone, createdWithin, total_nil]
  · obtain ⟨tx, htx, -, hheight⟩ :=
      mem_createdHeights.1 (hcreated ▸ List.mem_singleton_self created)
    simp only [createdWithin, hcreated, List.flatMap_cons, List.flatMap_nil, List.append_nil,
      total_singleton, List.any_cons, List.any_nil, Bool.or_false, hbelow tx htx created hheight,
      decide_true, Bool.true_and]
    by_cases haddress : output.address = address
    · cases spentWithin db (fun spent => spent ≤ height) output <;> simp [haddress]
    · simp [haddress]

namespace Shown

variable (h : Shown given network t db)
include h

theorem tellsBalances (hcurrent : CurrentHeightTrue db) :
    TellsBalances network t.chain (sumBy (balanceEntries db)) where
  nodup := nodup_map_fst_sumBy _
  rows := by
    intro address value
    have hbelow : ∀ tx ∈ db.tx, ∀ level, tx.currentHeight = some level →
        level ≤ t.chain.length := fun tx htx level hlevel =>
      (lt_of_onChain ((h.current_iff hcurrent).1 ⟨tx, htx, rfl, hlevel⟩)).le
    have hall : t.chain.take (t.chain.length + 1) = t.chain :=
      List.take_of_length_le (Nat.le_succ _)
    rw [mem_sumBy, mem_keys_balanceEntries, h.received_iff hcurrent,
      total_balanceEntries_of_le h.uniqueKeys hbelow,
      amount_perm (h.unspentAt_perm hcurrent t.chain.length), hall]
    rfl

/-- The new views tell the balances where `current_height` is true. -/
theorem new_views (hcurrent : CurrentHeightTrue db) :
    TellsBalances network t.chain (addressBalance db) ∧
      TellsBalancesAtHeight network t.chain (addressBalanceAtHeight db) :=
  ⟨(h.tellsBalances hcurrent).perm (addressBalance_perm db),
    (h.tellsBalancesAtHeight hcurrent).perm (addressBalanceAtHeight_perm db)⟩

/-- The old views always do. -/
theorem old_views : TellsBalances network t.chain (addressBalanceOld db) ∧
    TellsBalancesAtHeight network t.chain (addressBalanceAtHeightOld db) := by
  have hcurrent := h.currentHeightTrue_confirmed
  have hbalance := addressBalanceOld_perm h.confirmed.uniqueKeys hcurrent
  have hatHeight := addressBalanceAtHeightOld_perm h.confirmed.uniqueKeys hcurrent
  rw [addressBalanceOld_confirmed] at hbalance
  rw [addressBalanceAtHeightOld_confirmed] at hatHeight
  exact ⟨(h.confirmed.tellsBalances hcurrent).perm hbalance,
    (h.confirmed.tellsBalancesAtHeight hcurrent).perm hatHeight⟩

end Shown

end BitcoinIndexer.ChainBalances
