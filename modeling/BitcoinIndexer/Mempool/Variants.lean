import BitcoinIndexer.Fees.Cache
import BitcoinIndexer.Mempool.Done

/-!
# Transactions with the same txid

A txid determines what a transaction spends and creates, not its witnesses.  The rows that
are written under it agree, whoever writes them, but for what depends on the witnesses: the
weight, and for each input whether it has one.
-/

namespace BitcoinIndexer.Variants

open BitcoinIndexer.Types
open BitcoinIndexer.Tables
open BitcoinIndexer.Formatter
open BitcoinIndexer.UtxoCache
open BitcoinIndexer.InsertedMap
open BitcoinIndexer.KeyedTable
open BitcoinIndexer.StoredRows
open BitcoinIndexer.Execution
open BitcoinIndexer.ChainState
open BitcoinIndexer.UniqueKeys
open BitcoinIndexer.MempoolDone
open BitcoinIndexer.Fees

/-- The transactions agree in all but their witnesses. -/
structure Agree (left right : Transaction) : Prop where
  outpoints : left.input.map (·.previousOutput) = right.input.map (·.previousOutput)
  outputs : left.output = right.output
  lockTime : left.lockTime = right.lockTime

/-- Among the transactions that are seen, a txid determines all but the witnesses, and its
leading bytes determine the txid. -/
structure Determined (seen : Set NamedTx) : Prop where
  injective : ∀ left ∈ seen, ∀ right ∈ seen, hashToHashId left.1 = hashToHashId right.1 →
    left.1 = right.1
  agree : ∀ left ∈ seen, ∀ right ∈ seen, left.1 = right.1 → Agree left.2 right.2

variable {seen : Set NamedTx} {network : Network} {left right tx : NamedTx}
variable {leftMap rightMap inputsUtxoMap : UtxoDetailsMap}

theorem Determined.of_hashId (h : Determined seen) (hleft : left ∈ seen) (hright : right ∈ seen)
    (hid : hashToHashId left.1 = hashToHashId right.1) :
    left.1 = right.1 ∧ Agree left.2 right.2 := by
  have htxid := h.injective left hleft right hright hid
  exact ⟨htxid, h.agree left hleft right hright htxid⟩

theorem isCoinBase_iff {tx : Transaction} :
    tx.isCoinBase = true ↔
      ∃ point, tx.input.map (·.previousOutput) = [point] ∧ point.isNull = true := by
  rw [Transaction.isCoinBase]
  rcases tx.input with _ | ⟨input, _ | ⟨second, inputs⟩⟩ <;> simp

theorem Agree.isCoinBase_eq {left right : Transaction} (h : Agree left right) :
    left.isCoinBase = right.isCoinBase := by
  rw [Bool.eq_iff_iff, isCoinBase_iff, isCoinBase_iff, h.outpoints]

/-! ## Fees -/

/-- The entries of the map are outputs of seen transactions. -/
def Sourced (seen : Set NamedTx) (map : UtxoDetailsMap) : Prop :=
  ∀ point entry, map.lookup point = some entry → ∃ tx ∈ seen, (point, entry.value) ∈ createdBy tx

theorem Determined.value_eq (h : Determined seen) (hleft : left ∈ seen) (hright : right ∈ seen)
    {point : HashIdOutPoint} {value other : ℕ} (hvalue : (point, value) ∈ createdBy left)
    (hother : (point, other) ∈ createdBy right) : value = other := by
  have hid : hashToHashId left.1 = hashToHashId right.1 := by
    rw [← createdBy_owner hvalue, ← createdBy_owner hother]
  obtain ⟨htxid, hagree⟩ := h.of_hashId hleft hright hid
  have hsame : createdBy right = createdBy left := by
    rw [createdBy, createdBy, htxid, hagree.outputs]
  rw [hsame] at hother
  have hpair := List.inj_on_of_nodup_map (createdBy_nodup left) hvalue hother rfl
  exact (Prod.mk.inj hpair).2

theorem inputValueSum_cons {input : TxIn} {inputs : List TxIn} {sum : ℕ}
    (hsum : TxFormatter.inputValueSum inputsUtxoMap (input :: inputs) = .ok sum) :
    ∃ entry rest, inputsUtxoMap.lookup (.ofOutPoint input.previousOutput) = some entry ∧
      TxFormatter.inputValueSum inputsUtxoMap inputs = .ok rest ∧ sum = entry.value + rest := by
  rw [TxFormatter.inputValueSum] at hsum
  cases hentry : inputsUtxoMap.lookup (.ofOutPoint input.previousOutput) with
  | none => simp [hentry] at hsum
  | some entry =>
      cases hrest : TxFormatter.inputValueSum inputsUtxoMap inputs with
      | error panic => simp [hentry, hrest, Except.map] at hsum
      | ok rest =>
          simp only [hentry, hrest, Except.map, Except.ok.injEq] at hsum
          exact ⟨entry, rest, rfl, rfl, hsum.symm⟩

theorem inputValueSum_unique (h : Determined seen) (hleft : Sourced seen leftMap)
    (hright : Sourced seen rightMap) {leftInputs rightInputs : List TxIn} {leftSum rightSum : ℕ}
    (hpoints : leftInputs.map (·.previousOutput) = rightInputs.map (·.previousOutput))
    (hleftSum : TxFormatter.inputValueSum leftMap leftInputs = .ok leftSum)
    (hrightSum : TxFormatter.inputValueSum rightMap rightInputs = .ok rightSum) :
    leftSum = rightSum := by
  induction leftInputs generalizing rightInputs leftSum rightSum with
  | nil =>
      have hnil : rightInputs = [] := by simpa using hpoints.symm
      rw [hnil] at hrightSum
      exact Except.ok.inj (hleftSum.symm.trans hrightSum)
  | cons input leftInputs ih =>
      obtain ⟨other, rightInputs, rfl⟩ : ∃ other rest, rightInputs = other :: rest := by
        cases rightInputs with
        | nil => simp at hpoints
        | cons other rest => exact ⟨other, rest, rfl⟩
      rw [List.map_cons, List.map_cons, List.cons.injEq] at hpoints
      obtain ⟨entry, rest, hentry, hrest, rfl⟩ := inputValueSum_cons hleftSum
      obtain ⟨otherEntry, otherRest, hotherEntry, hotherRest, rfl⟩ := inputValueSum_cons hrightSum
      rw [← hpoints.1] at hotherEntry
      obtain ⟨tx, htx, hvalue⟩ := hleft _ _ hentry
      obtain ⟨otherTx, hotherTx, hotherValue⟩ := hright _ _ hotherEntry
      rw [h.value_eq htx hotherTx hvalue hotherValue, ih hpoints.2 hrest hotherRest]

/-- The fees computed for two variants are the same, whatever maps they were computed with. -/
theorem fee_unique (h : Determined seen) (hleft : Sourced seen leftMap)
    (hright : Sourced seen rightMap) {left right : Transaction} (hagree : Agree left right)
    {leftFee rightFee : ℕ} (hleftFee : TxFormatter.fee leftMap left = .ok leftFee)
    (hrightFee : TxFormatter.fee rightMap right = .ok rightFee) : leftFee = rightFee := by
  rw [TxFormatter.fee] at hleftFee hrightFee
  rw [← hagree.isCoinBase_eq, ← hagree.outputs] at hrightFee
  split_ifs at hleftFee hrightFee with hcoinbase
  · exact Except.ok.inj (hleftFee.symm.trans hrightFee)
  · cases hleftSum : TxFormatter.inputValueSum leftMap left.input with
    | error panic => simp [hleftSum] at hleftFee
    | ok leftSum =>
        cases hrightSum : TxFormatter.inputValueSum rightMap right.input with
        | error panic => simp [hrightSum] at hrightFee
        | ok rightSum =>
            have hsum := inputValueSum_unique h hleft hright hagree.outpoints hleftSum hrightSum
            simp only [hleftSum] at hleftFee
            simp only [hrightSum, ← hsum] at hrightFee
            exact Except.ok.inj (hleftFee.symm.trans hrightFee)

/-! ## The maps of `process_blocks` -/

/-- The blocks of a batch: of different heights, and all their transactions are seen. -/
structure Mined (seen : Set NamedTx) (network : Network) (blocks : List BlockData) : Prop where
  heights : (blocks.map (·.height)).Nodup
  txs : ∀ tx ∈ txsOf network blocks, tx ∈ seen

variable {blocks : List BlockData} {cache : UtxoSetCache} {consumed : UtxoSetCache.Consumed}
variable {db after : Db} {mode : Mode} {queries : Queries}

theorem sourced_empty : Sourced seen ∅ := by
  intro point entry hlookup
  simp at hlookup

theorem Sourced.insertAll {γ : Type} {key : γ → HashIdOutPoint} {value : γ → UtxoSetEntry}
    {entries : List γ} {m : UtxoDetailsMap} (h : Sourced seen m)
    (hentries : ∀ entry ∈ entries, ∃ tx ∈ seen, (key entry, (value entry).value) ∈ createdBy tx) :
    Sourced seen (InsertedMap.insertAll key value entries m) := by
  intro point found hlookup
  obtain ⟨entry, hmem, rfl, rfl⟩ | hold := mem_of_lookup_insertAll hlookup
  · exact hentries entry hmem
  · exact h point found hold

theorem sourced_consume (points : List HashIdOutPoint) :
    ∀ {before : UtxoSetCache.Consumed}, Sourced seen before.cache.entries →
      Sourced seen before.found →
        Sourced seen (UtxoSetCache.consumeSpentUtxos points before).cache.entries ∧
          Sourced seen (UtxoSetCache.consumeSpentUtxos points before).found := by
  induction points with
  | nil => exact fun hcache hfound => ⟨hcache, hfound⟩
  | cons head points ih =>
      intro before hcache hfound
      cases hlookup : before.cache.entries.lookup head with
      | none =>
          simp only [UtxoSetCache.consumeSpentUtxos, hlookup]
          exact ih hcache hfound
      | some details =>
          simp only [UtxoSetCache.consumeSpentUtxos, hlookup]
          apply ih
          · intro point entry hentry
            by_cases hpoint : point = head
            · rw [hpoint, AList.lookup_erase] at hentry
              cases hentry
            · rw [AList.lookup_erase_ne hpoint] at hentry
              exact hcache point entry hentry
          · intro point entry hentry
            by_cases hpoint : point = head
            · rw [hpoint, AList.lookup_insert, Option.some.injEq] at hentry
              rw [hpoint, ← hentry]
              exact hcache head details hlookup
            · rw [AList.lookup_insert_ne hpoint] at hentry
              exact hfound point entry hentry

theorem sourced_processLocal (hmined : Mined seen network blocks)
    (hcache : Sourced seen cache.entries)
    (hprocess : cache.processLocal blocks (txIdMapFromBlocks blocks network) = .ok consumed) :
    Sourced seen consumed.cache.entries ∧ Sourced seen consumed.found := by
  have hinsert : UtxoSetCache.insertNewUtxosFromBlocks (txIdMapFromBlocks blocks network) blocks
      cache = .ok (insertCreated (created (txsOf network blocks)) cache) :=
    insertBlocks_eq (fun block hblock tx htx =>
      lookup_txIdMapFromBlocks hmined.heights network hblock htx) cache
  rw [UtxoSetCache.processLocal, hinsert, Except.map, Except.ok.injEq] at hprocess
  rw [← hprocess]
  apply sourced_consume _ _ sourced_empty
  apply hcache.insertAll
  intro output hmem
  obtain ⟨tx, htx, hin⟩ := List.mem_flatMap.1 hmem
  exact ⟨tx, hmined.txs tx htx, hin⟩

/-- The caches there are between two calls of `process_blocks`. -/
inductive Cached (seen : Set NamedTx) (network : Network) : UtxoSetCache → Prop where
  | default : Cached seen network .default
  | processed {cache : UtxoSetCache} {blocks : List BlockData} {consumed : UtxoSetCache.Consumed}
      (h : Cached seen network cache) (hmined : Mined seen network blocks)
      (hprocess : cache.processLocal blocks (txIdMapFromBlocks blocks network) = .ok consumed) :
      Cached seen network consumed.cache

theorem Cached.sourced (h : Cached seen network cache) : Sourced seen cache.entries := by
  induction h with
  | default => exact sourced_empty
  | processed h hmined hprocess ih => exact (sourced_processLocal hmined ih hprocess).1

/-- All outputs in the database are outputs of seen transactions. -/
def KnownOutputs (seen : Set NamedTx) (network : Network) (db : Db) : Prop :=
  ∀ row ∈ db.output, ∃ tx ∈ seen, row ∈ outputRows network tx

theorem sourced_fetchChunk (hdb : KnownOutputs seen network db) (chunk : List HashIdOutPoint)
    {out : UtxoDetailsMap} (hout : Sourced seen out) : Sourced seen (fetchChunk chunk db out) := by
  apply hout.insertAll
  intro row hmem
  obtain ⟨tx, htx, hrow⟩ := hdb row (List.mem_filter.1 hmem).1
  refine ⟨tx, htx, ?_⟩
  obtain ⟨output, houtput, rfl⟩ := List.mem_map.1 hrow
  exact List.mem_map.2 ⟨output, houtput, rfl⟩

/-- What the queries for a list of chunks have found, each in the state it was sent to. -/
def fetched (fetches : List (List HashIdOutPoint × Db)) : UtxoDetailsMap :=
  fetches.foldl (fun out fetch => fetchChunk fetch.1 fetch.2 out) ∅

theorem sourced_fetched {fetches : List (List HashIdOutPoint × Db)}
    (h : ∀ fetch ∈ fetches, KnownOutputs seen network fetch.2) :
    Sourced seen (fetched fetches) := by
  have hfold : ∀ {out}, Sourced seen out →
      Sourced seen (fetches.foldl (fun out fetch => fetchChunk fetch.1 fetch.2 out) out) := by
    induction fetches with
    | nil => exact id
    | cons fetch fetches ih =>
        intro out hout
        exact ih (fun other hmem => h other (List.mem_cons_of_mem _ hmem))
          (sourced_fetchChunk (h fetch (by simp)) fetch.1 hout)
  exact hfold sourced_empty

/-- What `process_blocks` returns: what the cache had, and what the queries have found. -/
def Gathered (seen : Set NamedTx) (network : Network) (blocks : List BlockData)
    (inputsUtxoMap : UtxoDetailsMap) : Prop :=
  ∃ cache consumed fetches, Cached seen network cache ∧
    cache.processLocal blocks (txIdMapFromBlocks blocks network) = .ok consumed ∧
    (∀ fetch ∈ fetches, KnownOutputs seen network fetch.2) ∧
    inputsUtxoMap = insertFetched consumed.found (fetched fetches)

theorem Gathered.sourced (h : Gathered seen network blocks inputsUtxoMap)
    (hmined : Mined seen network blocks) : Sourced seen inputsUtxoMap := by
  obtain ⟨cache, consumed, fetches, hcached, hprocess, hfetches, rfl⟩ := h
  have hfound := (sourced_processLocal hmined hcached.sourced hprocess).2
  intro point entry hlookup
  rw [lookup_insertFetched] at hlookup
  split_ifs at hlookup
  · exact sourced_fetched hfetches point entry hlookup
  · exact hfound point entry hlookup

/-! ## Rows -/

/-- The row is what the block formatter or the mempool indexer writes for the transaction,
whatever has become of its height since. -/
def Written (seen : Set NamedTx) (tx : NamedTx) (row : TxRow) : Prop :=
  ∃ inputsUtxoMap blockHeight mempoolTs, Sourced seen inputsUtxoMap ∧
    TxFormatter.fee inputsUtxoMap tx.2 = .ok row.fee ∧
    row = { TxFormatter.row blockHeight tx.2 tx.1 row.fee with mempoolTs := mempoolTs }

theorem Written.hashId {row : TxRow} (h : Written seen tx row) :
    row.hashId = hashToHashId tx.1 := by
  obtain ⟨_, _, _, -, -, hrow⟩ := h
  rw [hrow, TxFormatter.row]

theorem Written.withHeight {row : TxRow} (h : Written seen tx row)
    (blockHeight : Option BlockHeight) : Written seen tx { row with currentHeight := blockHeight } := by
  obtain ⟨inputsUtxoMap, _, mempoolTs, hsourced, hfee, hrow⟩ := h
  refine ⟨inputsUtxoMap, blockHeight, mempoolTs, hsourced, hfee, ?_⟩
  conv_lhs => rw [hrow]
  rfl

/-- Two rows that are written for variants differ in time, weight and height only. -/
theorem Written.agree (h : Determined seen) (hleft : left ∈ seen) (hright : right ∈ seen)
    {row other : TxRow} (hrow : Written seen left row) (hother : Written seen right other)
    (hid : row.hashId = other.hashId) :
    row = { other with
      mempoolTs := row.mempoolTs
      weight := row.weight
      currentHeight := row.currentHeight } := by
  rw [hrow.hashId, hother.hashId] at hid
  obtain ⟨htxid, hagree⟩ := h.of_hashId hleft hright hid
  obtain ⟨_, _, _, hsourced, hfee, heq⟩ := hrow
  obtain ⟨_, _, _, hotherSourced, hotherFee, hotherEq⟩ := hother
  have hfees := fee_unique h hsourced hotherSourced hagree hfee hotherFee
  rw [heq, hotherEq]
  simp only [TxFormatter.row, htxid, hagree.lockTime, hagree.isCoinBase_eq, hfees]

theorem outputRows_agree (htxid : left.1 = right.1) (hagree : Agree left.2 right.2) :
    outputRows network left = outputRows network right := by
  rw [outputRows, outputRows, htxid, hagree.outputs]

theorem inputKeys_agree (htxid : left.1 = right.1) (hagree : Agree left.2 right.2) :
    (inputRows left).map inputKey = (inputRows right).map inputKey := by
  have hkeys : ∀ tx : NamedTx, (tx.2.input.map (InputFormatter.row tx.1)).map inputKey =
      (tx.2.input.map (·.previousOutput)).map fun point =>
        (hashToHashId point.txid, point.vout, hashToHashId tx.1) := by
    intro tx
    rw [List.map_map, List.map_map]
    rfl
  rw [inputRows, inputRows, hagree.isCoinBase_eq]
  split
  · rfl
  · rw [hkeys, hkeys, htxid, hagree.outpoints]

theorem outputRows_key {row other : OutputRow} (hrow : row ∈ outputRows network tx)
    (hother : other ∈ outputRows network tx) (hkey : outputKey row = outputKey other) :
    row = other := by
  have hnodup : ((outputRows network tx).map outputKey).Nodup := by
    rw [outputKey_rows]
    exact List.nodup_range.map fun _ _ heq => (Prod.mk.inj heq).2
  exact List.inj_on_of_nodup_map hnodup hrow hother hkey

theorem inputKey_row {row other : InputRow} (hkey : inputKey row = inputKey other) :
    row = { other with hasWitness := row.hasWitness } := by
  cases row
  cases other
  simp_all [inputKey]

/-! ## Faithful tables -/

/-- Every row is one of a seen transaction, and in the normal schema the keys are unique. -/
structure Faithful (seen : Set NamedTx) (network : Network) (db : Db) : Prop where
  tx : ∀ row ∈ db.tx, ∃ tx ∈ seen, Written seen tx row
  output : KnownOutputs seen network db
  input : ∀ row ∈ db.input, ∃ tx ∈ seen, row ∈ inputRows tx
  keys : db.schema = .normal → keysUnique .normal db

/-- The rows of a transaction, of its outputs and of its inputs are stored. -/
structure Complete (network : Network) (tx : NamedTx) (db : Db) : Prop where
  schema : db.schema = .normal
  row : hashToHashId tx.1 ∈ db.tx.map (·.hashId)
  output : (outputRows network tx).map outputKey ⊆ db.output.map outputKey
  input : (inputRows tx).map inputKey ⊆ db.input.map inputKey

/-- Whoever inserts into the tables keeps them faithful, and no key is gone. -/
structure Grows (seen : Set NamedTx) (network : Network) (before after : Db) : Prop where
  faithful : Faithful seen network before → Faithful seen network after
  complete : ∀ tx, Complete network tx before → Complete network tx after

/-- The tables have the same rows. -/
theorem Grows.of_same (hschema : db.schema = .normal → after.schema = .normal)
    (hkeys : after.schema = .normal → keysUnique .normal after) (htx : after.tx = db.tx)
    (houtput : after.output = db.output) (hinput : after.input = db.input) :
    Grows seen network db after where
  faithful h := ⟨htx ▸ h.tx, by rw [KnownOutputs, houtput]; exact h.output, hinput ▸ h.input, hkeys⟩
  complete _ h := ⟨hschema h.schema, htx ▸ h.row, houtput ▸ h.output, hinput ▸ h.input⟩

theorem Grows.trans {middle : Db} (h : Grows seen network db middle)
    (hrest : Grows seen network middle after) : Grows seen network db after where
  faithful hbefore := hrest.faithful (h.faithful hbefore)
  complete tx hbefore := hrest.complete tx (h.complete tx hbefore)

/-! ## Blocks -/

/-- A transaction that inserts blocks, a batch or a reorg: `base` is its state when it does. -/
structure Inserts (seen : Set NamedTx) (network : Network) (mode : Mode)
    (blocks : List BlockData) (queries : Queries) (before base after : Db) : Prop where
  begun : base = before ∨ ∃ height revived, base = reorganized height revived before
  mined : Mined seen network blocks
  formatted : ∃ inputsUtxoMap, Gathered seen network blocks inputsUtxoMap ∧
    fmtInsertBlockdataSql blocks inputsUtxoMap (txIdMapFromBlocks blocks network) mode network =
      .ok queries
  succeeds : executeAll queries.toList base = (after, none)

variable {before base : Db}

/-- The rows of a batch are those of its transactions, which are seen. -/
structure RowsWritten (seen : Set NamedTx) (network : Network) (blocks : List BlockData)
    (rows : Rows) : Prop where
  tx : ∀ row ∈ rows.tx, ∃ tx ∈ txsOf network blocks, Written seen tx row
  output : ∀ row ∈ rows.output, ∃ tx ∈ txsOf network blocks, row ∈ outputRows network tx
  input : ∀ row ∈ rows.input, ∃ tx ∈ txsOf network blocks, row ∈ inputRows tx

theorem rowsWritten (hsourced : Sourced seen inputsUtxoMap)
    (hfmt : fmtInsertBlockdataSql blocks inputsUtxoMap (txIdMapFromBlocks blocks network) mode
      network = .ok queries) :
    RowsWritten seen network blocks (rowsOf network inputsUtxoMap blocks) where
  tx := by
    intro row hmem
    obtain ⟨block, hblock, hrow⟩ := List.mem_flatMap.1 hmem
    obtain ⟨tx, htx, rfl⟩ := List.mem_map.1 hrow
    refine ⟨tx, List.mem_flatMap.2 ⟨block, hblock, htx⟩, inputsUtxoMap, some block.height, none,
      hsourced, ?_, rfl⟩
    obtain ⟨transaction, htransaction, rfl⟩ := List.mem_map.1 htx
    rw [fmtInsertBlockdataSql] at hfmt
    cases hformatted : (BlockFormatter.new mode network inputsUtxoMap
        (txIdMapFromBlocks blocks network)).fmtBlocks blocks with
    | error panic => simp [hformatted, Except.map] at hfmt
    | ok formatted =>
        obtain ⟨fee, hfee⟩ := fees_of_fmtBlocks blocks hformatted block hblock transaction htransaction
        simp only [BlockFormatter.new, TxFormatter.newForInBlock] at hfee
        simp [txRow, TxFormatter.row, feeOf_of_fee hfee, hfee]
  output := by
    intro row hmem
    obtain ⟨block, hblock, hrow⟩ := List.mem_flatMap.1 hmem
    obtain ⟨tx, htx, hin⟩ := List.mem_flatMap.1 hrow
    exact ⟨tx, List.mem_flatMap.2 ⟨block, hblock, htx⟩, hin⟩
  input := by
    intro row hmem
    obtain ⟨block, hblock, hrow⟩ := List.mem_flatMap.1 hmem
    obtain ⟨tx, htx, hin⟩ := List.mem_flatMap.1 hrow
    exact ⟨tx, List.mem_flatMap.2 ⟨block, hblock, htx⟩, hin⟩

/-- What a batch of seen transactions says and does. -/
theorem Inserts.exists_rows (h : Inserts seen network mode blocks queries before base after) :
    ∃ inputsUtxoMap, RowsWritten seen network blocks (rowsOf network inputsUtxoMap blocks) ∧
      Saying mode (rowsOf network inputsUtxoMap blocks) queries := by
  obtain ⟨inputsUtxoMap, hgathered, hfmt⟩ := h.formatted
  exact ⟨inputsUtxoMap, rowsWritten (hgathered.sourced h.mined) hfmt,
    saying_of_fmt h.mined.heights hfmt⟩

/-- The statements of a reorg before its blocks. -/
theorem grows_reorganized (height : BlockHeight) (revived : List BlockData) (db : Db) :
    Grows seen network db (reorganized height revived db) := by
  have hids : (reorganized height revived db).tx.map (·.hashId) = db.tx.map (·.hashId) :=
    CurrentHeight.map_hashId_reviveAll revived _
  have hrows : ∀ row ∈ (reorganized height revived db).tx, ∃ old ∈ db.tx,
      { old with currentHeight := row.currentHeight } = row := by
    intro row hmem
    obtain ⟨old, hold, hsame, -⟩ := CurrentHeight.mem_tx_reviveAll revived hmem
    exact ⟨old, hold, hsame⟩
  obtain ⟨eventIdSeq, event, block, tx, hframe⟩ := reorganized_frame height revived db
  rw [hframe] at hids hrows ⊢
  constructor
  · intro h
    refine ⟨fun row hmem => ?_, h.output, h.input, fun hschema => ?_⟩
    · obtain ⟨old, hold, hsame⟩ := hrows row hmem
      obtain ⟨tx, htx, hwritten⟩ := h.tx old hold
      exact ⟨tx, htx, hsame ▸ hwritten.withHeight row.currentHeight⟩
    · rw [keysUnique, hids]
      exact h.keys hschema
  · intro tx h
    exact ⟨h.schema, by rw [hids]; exact h.row, h.output, h.input⟩

theorem grows_executed {inputsUtxoMap : UtxoDetailsMap} (hmined : Mined seen network blocks)
    (hrows : RowsWritten seen network blocks (rowsOf network inputsUtxoMap blocks))
    (hexecuted : Executed mode (rowsOf network inputsUtxoMap blocks) base after) :
    Grows seen network base after where
  faithful h := by
    refine ⟨?_, ?_, ?_, fun hschema => ?_⟩
    · have hnew : ∀ row ∈ (rowsOf network inputsUtxoMap blocks).tx, ∃ tx ∈ seen,
          Written seen tx row := by
        intro row hmem
        obtain ⟨tx, htx, hwritten⟩ := hrows.tx row hmem
        exact ⟨tx, hmined.txs tx htx, hwritten⟩
      have htx := hexecuted.tx
      cases hmode : mode.isBulk with
      | true =>
          rw [TxExecuted, if_pos hmode] at htx
          exact fun row hmem => (mem_of_insertRows htx hmem).elim (h.tx row) (hnew row)
      | false =>
          rw [TxExecuted, if_neg (by simp [hmode])] at htx
          rw [htx.1]
          apply forall_upsertRows h.tx hnew
          rintro new old ⟨tx, htx, hwritten⟩
          exact ⟨tx, htx, hwritten.withHeight new.currentHeight⟩
    · intro row hmem
      obtain hold | hnew := mem_of_insertRows hexecuted.output hmem
      · exact h.output row hold
      · obtain ⟨tx, htx, hin⟩ := hrows.output row hnew
        exact ⟨tx, hmined.txs tx htx, hin⟩
    · intro row hmem
      obtain hold | hnew := mem_of_insertRows hexecuted.input hmem
      · exact h.input row hold
      · obtain ⟨tx, htx, hin⟩ := hrows.input row hnew
        exact ⟨tx, hmined.txs tx htx, hin⟩
    · rw [hexecuted.schema] at hschema
      exact keysUnique_executed hexecuted hschema (h.keys hschema)
  complete tx h :=
    { schema := hexecuted.schema.trans h.schema
      row := (MinedTransactions.initial_tx_executed hexecuted).subset h.row
      output := List.Subset.trans h.output ((initial_of_insertRows hexecuted.output).map _).subset
      input := List.Subset.trans h.input ((initial_of_insertRows hexecuted.input).map _).subset }

theorem Inserts.grows_base (h : Inserts seen network mode blocks queries before base after) :
    Grows seen network before base := by
  obtain rfl | ⟨height, revived, rfl⟩ := h.begun
  · exact ⟨id, fun _ => id⟩
  · exact grows_reorganized height revived before

/-- A transaction that inserts blocks keeps the tables faithful. -/
theorem Inserts.grows (h : Inserts seen network mode blocks queries before base after) :
    Grows seen network before after := by
  obtain ⟨inputsUtxoMap, hrows, hsaying⟩ := h.exists_rows
  exact h.grows_base.trans (grows_executed h.mined hrows (executed hsaying h.succeeds))

end BitcoinIndexer.Variants
