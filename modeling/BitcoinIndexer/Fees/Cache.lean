import BitcoinIndexer.Core.InsertedMap
import BitcoinIndexer.Fees.SpentOutputs

/-!
# What the cache returns

The specification of each part of `process_blocks`: the outputs of the blocks are added,
those they spend are taken out, and what was not there is read from `output`.  With the
right map the formatter has no reason to panic.
-/

namespace BitcoinIndexer.Fees

open BitcoinIndexer.Types
open BitcoinIndexer.Tables
open BitcoinIndexer.Formatter
open BitcoinIndexer.UtxoCache
open BitcoinIndexer.InsertedMap
open BitcoinIndexer.StoredRows

/-! ## Adding outputs -/

def insertCreated (outputs : List (HashIdOutPoint × ℕ)) (cache : UtxoSetCache) : UtxoSetCache :=
  ⟨insertAll Prod.fst (fun output => ⟨output.2⟩) outputs cache.entries⟩

theorem insertCreated_append (left right : List (HashIdOutPoint × ℕ)) (cache : UtxoSetCache) :
    insertCreated (left ++ right) cache = insertCreated right (insertCreated left cache) := by
  rw [insertCreated, insertAll_append]
  rfl

variable {network : Network} {txIds : TxIdMap} {blocks : List BlockData}

theorem insertOutputs_eq {position : BlockHeight × ℕ} {txid : Txid}
    (hlookup : txIds.lookup position = some txid) (outputs : List (TxOut × ℕ))
    (cache : UtxoSetCache) :
    UtxoSetCache.insertOutputs txIds position outputs cache =
      .ok (insertCreated (outputs.map fun output =>
        (.fromTxHashAndIdx txid output.2, output.1.value)) cache) := by
  induction outputs generalizing cache with
  | nil => rfl
  | cons output outputs ih =>
      simp only [UtxoSetCache.insertOutputs, hlookup, ih]
      rfl

theorem insertTxs_eq {height : BlockHeight} (name : Transaction → Txid)
    (txs : List (Transaction × ℕ))
    (hlookup : ∀ tx ∈ txs, txIds.lookup (height, tx.2) = some (name tx.1))
    (cache : UtxoSetCache) :
    UtxoSetCache.insertTxs txIds height txs cache =
      .ok (insertCreated (created (txs.map fun tx => (name tx.1, tx.1))) cache) := by
  induction txs generalizing cache with
  | nil => rfl
  | cons tx txs ih =>
      obtain ⟨tx, txI⟩ := tx
      have hhead := hlookup (tx, txI) (by simp)
      have hrest := ih fun other hmem => hlookup other (List.mem_cons_of_mem _ hmem)
      simp only [UtxoSetCache.insertTxs, insertOutputs_eq hhead, hrest, ← insertCreated_append]
      rfl

theorem insertBlocks_eq (hlookup : ∀ block ∈ blocks, ∀ tx ∈ block.data.txdata.zipIdx,
      txIds.lookup (block.height, tx.2) =
        some (calculateTxIdWithWorkarounds block tx.1 network)) (cache : UtxoSetCache) :
    UtxoSetCache.insertNewUtxosFromBlocks txIds blocks cache =
      .ok (insertCreated (created (txsOf network blocks)) cache) := by
  induction blocks generalizing cache with
  | nil => rfl
  | cons block blocks ih =>
      have hhead := insertTxs_eq (fun tx => calculateTxIdWithWorkarounds block tx network)
        block.data.txdata.zipIdx (hlookup block (by simp))
      have hrest := ih fun other hmem => hlookup other (List.mem_cons_of_mem _ hmem)
      rw [map_txs] at hhead
      have hcreated : created (txsOf network (block :: blocks)) =
          created (block.txs network) ++ created (txsOf network blocks) := by
        simp [txsOf, created]
      simp only [UtxoSetCache.insertNewUtxosFromBlocks, hhead, hrest, hcreated,
        ← insertCreated_append]

theorem lookup_insertCreated {txs : List NamedTx} {outputs : List (HashIdOutPoint × ℕ)}
    (hvalue : ∀ output ∈ outputs, output.2 = valueOf txs output.1) (cache : UtxoSetCache)
    (point : HashIdOutPoint) :
    (insertCreated outputs cache).entries.lookup point =
      if point ∈ outputs.map Prod.fst then some ⟨valueOf txs point⟩
      else cache.entries.lookup point :=
  lookup_insertAll (fun point => (⟨valueOf txs point⟩ : UtxoSetEntry))
    (fun output hmem => congrArg UtxoSetEntry.mk (hvalue output hmem)) cache.entries point

/-! ## Taking the spent ones out -/

/-- What a map holds under `points`, and what it does not. -/
structure Taken (points : List HashIdOutPoint) (before after : UtxoSetCache.Consumed) : Prop where
  cache : ∀ point, after.cache.entries.lookup point =
    if point ∈ points then none else before.cache.entries.lookup point
  found : ∀ point, after.found.lookup point =
    if point ∈ points ∧ (before.cache.entries.lookup point).isSome then
      before.cache.entries.lookup point
    else before.found.lookup point
  missing : after.missing = before.missing ++
    points.filter fun point => (before.cache.entries.lookup point).isNone

theorem consumeSpentUtxos_taken {points : List HashIdOutPoint} (hnodup : points.Nodup)
    (before : UtxoSetCache.Consumed) :
    Taken points before (UtxoSetCache.consumeSpentUtxos points before) := by
  induction points generalizing before with
  | nil => exact ⟨by simp [UtxoSetCache.consumeSpentUtxos],
      by simp [UtxoSetCache.consumeSpentUtxos], by simp [UtxoSetCache.consumeSpentUtxos]⟩
  | cons head points ih =>
      obtain ⟨hnot, hrest⟩ := List.nodup_cons.1 hnodup
      cases hlookup : before.cache.entries.lookup head with
      | none =>
          have htaken := ih hrest { before with missing := before.missing ++ [head] }
          simp only [UtxoSetCache.consumeSpentUtxos, hlookup]
          constructor
          · intro point
            rw [htaken.cache]
            obtain rfl | heq := eq_or_ne point head
            · simp [hnot, hlookup]
            · simp [heq]
          · intro point
            rw [htaken.found]
            obtain rfl | heq := eq_or_ne point head
            · simp [hnot, hlookup]
            · simp [heq]
          · rw [htaken.missing]
            simp [hlookup]
      | some details =>
          have htaken := ih hrest { before with
            cache := ⟨before.cache.entries.erase head⟩
            found := before.found.insert head details }
          have hkept : ∀ point, point ≠ head →
              (before.cache.entries.erase head).lookup point = before.cache.entries.lookup point :=
            fun point hne => AList.lookup_erase_ne hne
          simp only [UtxoSetCache.consumeSpentUtxos, hlookup]
          constructor
          · intro point
            rw [htaken.cache]
            obtain rfl | heq := eq_or_ne point head
            · simp [AList.lookup_erase]
            · simp [heq, hkept point heq]
          · intro point
            rw [htaken.found]
            obtain rfl | heq := eq_or_ne point head
            · simp [hnot, hlookup, AList.lookup_insert]
            · simp [heq, hkept point heq, AList.lookup_insert_ne heq]
          · have hfilter : (points.filter fun point =>
                ((before.cache.entries.erase head).lookup point).isNone) =
                  points.filter fun point => (before.cache.entries.lookup point).isNone := by
              apply List.filter_congr
              intro point hmem
              rw [hkept point fun heq => hnot (heq ▸ hmem)]
            rw [htaken.missing, hfilter]
            simp [hlookup]

/-! ## Fetching the missing ones -/

def rowPoint (row : OutputRow) : HashIdOutPoint := ⟨row.txHashId, row.txIdx⟩

/-- Where every point of a chunk is stored with its value, it is what the query adds. -/
theorem lookup_fetchChunk (txs : List NamedTx) {chunk : List HashIdOutPoint} {db : Db}
    (hstored : ∀ point ∈ chunk, ∃ row ∈ db.output, rowPoint row = point)
    (hvalue : ∀ row ∈ db.output, rowPoint row ∈ chunk → row.value = valueOf txs (rowPoint row))
    (out : UtxoDetailsMap) (point : HashIdOutPoint) :
    (fetchChunk chunk db out).lookup point =
      if point ∈ chunk then some ⟨valueOf txs point⟩ else out.lookup point := by
  have hrows : ∀ row ∈ outputsIn chunk db,
      (⟨row.value⟩ : UtxoSetEntry) = ⟨valueOf txs (rowPoint row)⟩ := by
    intro row hmem
    rw [outputsIn, List.mem_filter, decide_eq_true_eq] at hmem
    rw [hvalue row hmem.1 hmem.2]
  have hlookup := lookup_insertAll (fun point => (⟨valueOf txs point⟩ : UtxoSetEntry)) hrows out
    point
  have hpoints : point ∈ (outputsIn chunk db).map rowPoint ↔ point ∈ chunk := by
    constructor
    · intro hmem
      obtain ⟨row, hrow, rfl⟩ := List.mem_map.1 hmem
      rw [outputsIn, List.mem_filter, decide_eq_true_eq] at hrow
      exact hrow.2
    · intro hmem
      obtain ⟨row, hrow, rfl⟩ := hstored point hmem
      apply List.mem_map_of_mem
      rw [outputsIn, List.mem_filter, decide_eq_true_eq]
      exact ⟨hrow, hmem⟩
  simp only [hpoints] at hlookup
  exact hlookup

/-- Everything fetched is there, over what was found. -/
theorem lookup_insertFetched (found out : UtxoDetailsMap) (point : HashIdOutPoint) :
    (insertFetched found out).lookup point =
      if (out.lookup point).isSome then out.lookup point else found.lookup point := by
  have hvalue : ∀ entry ∈ out.entries,
      entry.2 = (out.lookup entry.1).getD (⟨0⟩ : UtxoSetEntry) := by
    intro entry hmem
    have hlookup : out.lookup entry.1 = some entry.2 := AList.mem_lookup_iff.2 hmem
    simp [hlookup]
  have hkeys : point ∈ out.entries.map Sigma.fst ↔ (out.lookup point).isSome := by
    rw [AList.lookup_isSome, AList.mem_keys]
    rfl
  have hinsert := lookup_insertAll (fun point => (out.lookup point).getD ⟨0⟩) hvalue found point
  simp only [hkeys] at hinsert
  rw [insertFetched]
  refine hinsert.trans ?_
  cases hlookup : out.lookup point <;> simp

/-! ## Formatting with the right map -/

/-- The map gives every output that `txs` spend its value on the chain. -/
def RightFor (chain : List NamedTx) (points : List HashIdOutPoint)
    (inputsUtxoMap : UtxoDetailsMap) : Prop :=
  ∀ point ∈ points, inputsUtxoMap.lookup point = some ⟨valueOf chain point⟩

variable {inputsUtxoMap : UtxoDetailsMap} {chain : List NamedTx}

theorem inputValueSum_eq {inputs : List TxIn}
    (hright : RightFor chain (inputs.map fun input => .ofOutPoint input.previousOutput)
      inputsUtxoMap) :
    TxFormatter.inputValueSum inputsUtxoMap inputs =
      .ok ((inputs.map fun input => valueOf chain (.ofOutPoint input.previousOutput)).sum) := by
  induction inputs with
  | nil => rfl
  | cons input inputs ih =>
      have hhead := hright (.ofOutPoint input.previousOutput) (by simp)
      have hrest := ih fun point hmem => hright point (by simp [List.mem_map.1 hmem])
      simp [TxFormatter.inputValueSum, hhead, hrest, Except.map]

theorem fee_eq {tx : Transaction} (hright : RightFor chain (spentBy tx) inputsUtxoMap)
    (hfunded : tx.isCoinBase = false →
      (tx.output.map (·.value)).sum ≤ inputValue chain tx) :
    TxFormatter.fee inputsUtxoMap tx = .ok (feeIn chain tx) := by
  cases hcoinbase : tx.isCoinBase with
  | true => simp [TxFormatter.fee, feeIn, hcoinbase]
  | false =>
      have hspent : spentBy tx = tx.input.map fun input => .ofOutPoint input.previousOutput := by
        simp [spentBy, hcoinbase]
      have hfunded := hfunded hcoinbase
      rw [hspent] at hright
      rw [inputValue, hspent, List.map_map] at hfunded
      simp only [TxFormatter.fee, TxFormatter.outputValueSum, feeIn, hcoinbase, inputValue, hspent,
        inputValueSum_eq hright, List.map_map, Function.comp_def] at hfunded ⊢
      simp [hfunded]

section Formatting

/-- Where every transaction has a fee, the queries of the blocks are written. -/
theorem fmtInsertBlockdataSql_ok (hheights : (blocks.map (·.height)).Nodup) (mode : Mode)
    (hfee : ∀ block ∈ blocks, ∀ tx ∈ block.data.txdata,
      ∃ fee, TxFormatter.fee inputsUtxoMap tx = .ok fee) :
    ∃ queries, fmtInsertBlockdataSql blocks inputsUtxoMap (txIdMapFromBlocks blocks network) mode
      network = .ok queries := by
  obtain ⟨after, hafter⟩ := fmtBlocks_ok blocks
    (f := .new mode network inputsUtxoMap (txIdMapFromBlocks blocks network))
    (fun block hblock tx htx => by
      change ((txIdMapFromBlocks blocks network).lookup _).isSome
      rw [lookup_txIdMapFromBlocks hheights network hblock htx]
      rfl) hfee
  exact ⟨after.drop, by rw [fmtInsertBlockdataSql, hafter]; rfl⟩

end Formatting

end BitcoinIndexer.Fees
