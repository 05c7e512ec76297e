import BitcoinIndexer.Db.Formatter

/-!
# The rows a list of blocks is stored as

What the six query strings of a batch say, apart from how they are cut into
statements, and what executing them does to the tables.
-/

namespace BitcoinIndexer.StoredRows

open BitcoinIndexer.Types
open BitcoinIndexer.Tables
open BitcoinIndexer.Formatter
open BitcoinIndexer.KeyedTable

/-! ## Statements and formatters -/

/-- The statements insert `rows`, in order, all with the same conflict clause. -/
structure Say {ρ : Type} (clause : OnConflict) (rows : List ρ)
    (statements : List (Insert ρ)) : Prop where
  values : statements.flatMap (·.values) = rows
  clauses : ∀ statement ∈ statements, statement.onConflict = clause

/-- What a formatter has been given so far. -/
structure Given {ρ : Type} (clause : OnConflict) (rows : List ρ)
    (f : MultiValueSqlFormatter ρ) : Prop where
  values : f.out.flatMap (·.values) ++ f.queryValues = rows
  onConflict : f.onConflict = clause
  clauses : ∀ statement ∈ f.out, statement.onConflict = clause

section Formatters

variable {ρ α : Type} {clause : OnConflict} {rows : List ρ} {f : MultiValueSqlFormatter ρ}

theorem Given.terminateQuery (h : Given clause rows f) : Given clause rows f.terminateQuery where
  values := by simpa [MultiValueSqlFormatter.terminateQuery] using h.values
  onConflict := h.onConflict
  clauses := fun statement hmem => by
    obtain hold | hnew := List.mem_append.1 hmem
    · exact h.clauses statement hold
    · rw [List.mem_singleton.1 hnew]
      exact h.onConflict

theorem Given.maybeTerminateQuery (h : Given clause rows f) :
    Given clause rows f.maybeTerminateQuery := by
  by_cases hlong : f.queryValues.length > sqlInsertValuesSize
  · simpa [MultiValueSqlFormatter.maybeTerminateQuery, hlong] using h.terminateQuery
  · simpa [MultiValueSqlFormatter.maybeTerminateQuery, hlong] using h

theorem Given.fmtWith (h : Given clause rows f) (value : ρ) :
    Given clause (rows ++ [value]) (f.fmtWith value) where
  values := by
    rw [← h.maybeTerminateQuery.values, MultiValueSqlFormatter.fmtWith, List.append_assoc]
  onConflict := h.maybeTerminateQuery.onConflict
  clauses := h.maybeTerminateQuery.clauses

theorem Given.foldl (row : α → ρ) (values : List α) :
    ∀ {rows f}, Given clause rows f →
      Given clause (rows ++ values.map row) (values.foldl (fun f value => f.fmtWith (row value)) f) := by
  induction values with
  | nil => exact fun h => by simpa using h
  | cons value values ih =>
      intro rows f h
      simpa using ih (h.fmtWith (row value))

theorem Given.drop (h : Given clause rows f) : Say clause rows f.drop := by
  by_cases hlong : f.queryValues.length > 0
  · have hterminated := h.terminateQuery
    refine ⟨?_, ?_⟩
    · simpa [MultiValueSqlFormatter.drop, hlong, MultiValueSqlFormatter.terminateQuery] using
        h.values
    · simpa [MultiValueSqlFormatter.drop, hlong] using hterminated.clauses
  · have hnil : f.queryValues = [] := by simpa using hlong
    refine ⟨?_, ?_⟩
    · simpa [MultiValueSqlFormatter.drop, hlong, hnil] using h.values
    · simpa [MultiValueSqlFormatter.drop, hlong] using h.clauses

end Formatters

/-! ## The rows of a block -/

/-- `DO NOTHING` in normal mode, nothing in a bulk mode. -/
def autoClause (mode : Mode) : OnConflict := if mode.isBulk then .raise else .doNothing

def txClause (mode : Mode) : OnConflict := if mode.isBulk then .raise else .updateCurrentHeight

def spentValue (inputsUtxoMap : UtxoDetailsMap) (input : TxIn) : ℕ :=
  ((inputsUtxoMap.lookup (.ofOutPoint input.previousOutput)).map (·.value)).getD 0

/-- What the inputs are worth beyond the outputs; nothing for a coinbase. -/
def feeOf (inputsUtxoMap : UtxoDetailsMap) (tx : Transaction) : ℕ :=
  if tx.isCoinBase then 0
  else (tx.input.map (spentValue inputsUtxoMap)).sum - (tx.output.map (·.value)).sum

def txRow (inputsUtxoMap : UtxoDetailsMap) (height : BlockHeight) (tx : Txid × Transaction) :
    TxRow :=
  TxFormatter.row (some height) tx.2 tx.1 (feeOf inputsUtxoMap tx.2)

def outputRows (network : Network) (tx : Txid × Transaction) : List OutputRow :=
  tx.2.output.zipIdx.map fun output => OutputFormatter.row network tx.1 output.1 output.2

def inputRows (tx : Txid × Transaction) : List InputRow :=
  if tx.2.isCoinBase then [] else tx.2.input.map (InputFormatter.row tx.1)

/-- What is said about a list of blocks, each with the transactions named in it. -/
structure Rows where
  event : List HashId
  block : List BlockRow
  blockTx : List BlockTxRow
  tx : List TxRow
  output : List OutputRow
  input : List InputRow

def Rows.append (left right : Rows) : Rows where
  event := left.event ++ right.event
  block := left.block ++ right.block
  blockTx := left.blockTx ++ right.blockTx
  tx := left.tx ++ right.tx
  output := left.output ++ right.output
  input := left.input ++ right.input

def Rows.empty : Rows := ⟨[], [], [], [], [], []⟩

/-- The rows of the transactions `txs` of a block. -/
def txsRows (network : Network) (inputsUtxoMap : UtxoDetailsMap) (block : BlockData)
    (txs : List (Txid × Transaction)) : Rows where
  event := []
  block := []
  blockTx := txs.map fun tx => BlockTxFormatter.row block tx.1
  tx := txs.map (txRow inputsUtxoMap block.height)
  output := txs.flatMap (outputRows network)
  input := txs.flatMap inputRows

/-- The rows of the blocks, `txs` being the transactions of each under their ids. -/
def rowsBy (network : Network) (inputsUtxoMap : UtxoDetailsMap)
    (txs : BlockData → List (Txid × Transaction)) (blocks : List BlockData) : Rows where
  event := blocks.map BlockData.hashId
  block := blocks.map BlockFormatter.row
  blockTx := blocks.flatMap fun block => (txs block).map fun tx => BlockTxFormatter.row block tx.1
  tx := blocks.flatMap fun block => (txs block).map (txRow inputsUtxoMap block.height)
  output := blocks.flatMap fun block => (txs block).flatMap (outputRows network)
  input := blocks.flatMap fun block => (txs block).flatMap inputRows

def rowsOf (network : Network) (inputsUtxoMap : UtxoDetailsMap) (blocks : List BlockData) :
    Rows :=
  rowsBy network inputsUtxoMap (BlockData.txs · network) blocks

/-- What a block formatter has been given so far, with the parameters it captured. -/
structure BlockGiven (mode : Mode) (network : Network) (inputsUtxoMap : UtxoDetailsMap)
    (txIds : TxIdMap) (rows : Rows) (f : BlockFormatter) : Prop where
  network : f.txFmt.network = network
  inputsUtxoMap : f.txFmt.inputsUtxoMap = inputsUtxoMap
  txIds : f.txIds = txIds
  event : Given (autoClause mode) rows.event f.event
  block : Given (autoClause mode) rows.block f.block
  blockTx : Given (autoClause mode) rows.blockTx f.blockTxFmt
  tx : Given (txClause mode) rows.tx f.txFmt.tx
  output : Given (autoClause mode) rows.output f.txFmt.outputFmt
  input : Given (autoClause mode) rows.input f.txFmt.inputFmt

section Fees

variable {inputsUtxoMap : UtxoDetailsMap}

theorem sum_of_inputValueSum {inputs : List TxIn} :
    ∀ {sum : ℕ}, TxFormatter.inputValueSum inputsUtxoMap inputs = .ok sum →
      (inputs.map (spentValue inputsUtxoMap)).sum = sum := by
  induction inputs with
  | nil => exact fun h => Except.ok.inj h
  | cons input inputs ih =>
      intro sum h
      cases hentry : inputsUtxoMap.lookup (.ofOutPoint input.previousOutput) with
      | none => simp [TxFormatter.inputValueSum, hentry] at h
      | some entry =>
          cases hrest : TxFormatter.inputValueSum inputsUtxoMap inputs with
          | error panic => simp [TxFormatter.inputValueSum, hentry, hrest, Except.map] at h
          | ok rest =>
              have hsum : entry.value + rest = sum := by
                simpa [TxFormatter.inputValueSum, hentry, hrest, Except.map] using h
              simp [spentValue, hentry, ih hrest, hsum]

/-- Where the formatter does not panic, it writes this fee. -/
theorem feeOf_of_fee {tx : Transaction} {fee : ℕ}
    (h : TxFormatter.fee inputsUtxoMap tx = .ok fee) : feeOf inputsUtxoMap tx = fee := by
  rw [TxFormatter.fee] at h
  cases hcoinbase : tx.isCoinBase with
  | true => simpa [feeOf, hcoinbase] using h
  | false =>
      cases hinputs : TxFormatter.inputValueSum inputsUtxoMap tx.input with
      | error panic => simp [hcoinbase, hinputs] at h
      | ok inputs =>
          simp only [hcoinbase, hinputs, Bool.false_eq_true, if_false] at h
          split_ifs at h
          have hfee : inputs - (tx.output.map (·.value)).sum = fee := Except.ok.inj h
          simpa [feeOf, hcoinbase, sum_of_inputValueSum hinputs] using hfee

end Fees

section Blocks

variable {mode : Mode} {network : Network} {inputsUtxoMap : UtxoDetailsMap} {txIds : TxIdMap}
variable {rows : Rows} {f after : BlockFormatter} {block : BlockData}

theorem blockGiven_new (mode : Mode) (network : Network) (inputsUtxoMap : UtxoDetailsMap)
    (txIds : TxIdMap) :
    BlockGiven mode network inputsUtxoMap txIds .empty
      (.new mode network inputsUtxoMap txIds) := by
  cases mode <;> constructor <;> first | rfl | (constructor <;> first | rfl | (intro _ h; cases h))

theorem BlockGiven.fmtOne (h : BlockGiven mode network inputsUtxoMap txIds rows f)
    (block : BlockData) :
    BlockGiven mode network inputsUtxoMap txIds
      (rows.append ⟨[block.hashId], [BlockFormatter.row block], [], [], [], []⟩)
      (f.fmtOne block) where
  network := h.network
  inputsUtxoMap := h.inputsUtxoMap
  txIds := h.txIds
  event := h.event.fmtWith _
  block := h.block.fmtWith _
  blockTx := by simpa [Rows.append, BlockFormatter.fmtOne] using h.blockTx
  tx := by simpa [Rows.append, BlockFormatter.fmtOne] using h.tx
  output := by simpa [Rows.append, BlockFormatter.fmtOne] using h.output
  input := by simpa [Rows.append, BlockFormatter.fmtOne] using h.input

/-- One transaction: it has an id and a fee, and its rows are added. -/
theorem BlockGiven.fmtTx (h : BlockGiven mode network inputsUtxoMap txIds rows f)
    {tx : Transaction} {txId : Txid} {txFmt : TxFormatter}
    (hfmt : f.txFmt.fmt (some block.height) tx txId = .ok txFmt) :
    BlockGiven mode network inputsUtxoMap txIds
      (rows.append (txsRows network inputsUtxoMap block [(txId, tx)]))
      { f with
        txFmt := txFmt
        blockTxFmt := f.blockTxFmt.fmtWith (BlockTxFormatter.row block txId) } := by
  rw [TxFormatter.fmt] at hfmt
  cases hfee : TxFormatter.fee f.txFmt.inputsUtxoMap tx with
  | error panic => simp [hfee] at hfmt
  | ok fee =>
      have hrow : txRow inputsUtxoMap block.height (txId, tx) =
          TxFormatter.row (some block.height) tx txId fee := by
        rw [h.inputsUtxoMap] at hfee
        simp [txRow, feeOf_of_fee hfee]
      simp only [hfee, Except.ok.injEq] at hfmt
      subst hfmt
      refine
        { network := h.network
          inputsUtxoMap := h.inputsUtxoMap
          txIds := h.txIds
          event := by simpa [Rows.append, txsRows] using h.event
          block := by simpa [Rows.append, txsRows] using h.block
          blockTx := h.blockTx.fmtWith _
          tx := by simpa [Rows.append, txsRows, hrow] using h.tx.fmtWith _
          output := ?_
          input := ?_ }
      · have houtput := h.output.foldl
          (fun output : TxOut × ℕ => OutputFormatter.row network txId output.1 output.2)
          tx.output.zipIdx
        simpa [Rows.append, txsRows, outputRows, h.network] using houtput
      · cases hcoinbase : tx.isCoinBase with
        | true => simpa [Rows.append, txsRows, inputRows, hcoinbase] using h.input
        | false =>
            have hinput := h.input.foldl (InputFormatter.row txId) tx.input
            simpa [Rows.append, txsRows, inputRows, hcoinbase] using hinput

theorem Rows.append_txsRows (rows : Rows) (tx : Txid × Transaction)
    (txs : List (Txid × Transaction)) :
    (rows.append (txsRows network inputsUtxoMap block [tx])).append
        (txsRows network inputsUtxoMap block txs) =
      rows.append (txsRows network inputsUtxoMap block (tx :: txs)) := by
  simp [Rows.append, txsRows]

theorem BlockGiven.fmtTxs (name : Transaction × ℕ → Txid) (txs : List (Transaction × ℕ)) :
    ∀ {rows f}, BlockGiven mode network inputsUtxoMap txIds rows f →
      (∀ tx ∈ txs, txIds.lookup (block.height, tx.2) = some (name tx)) →
      f.fmtTxs block txs = .ok after →
      BlockGiven mode network inputsUtxoMap txIds
        (rows.append (txsRows network inputsUtxoMap block (txs.map fun tx => (name tx, tx.1))))
        after := by
  induction txs with
  | nil =>
      intro rows f h _ hfmt
      rw [BlockFormatter.fmtTxs, Except.ok.injEq] at hfmt
      simpa [Rows.append, txsRows, ← hfmt] using h
  | cons head txs ih =>
      intro rows f h hlookup hfmt
      obtain ⟨tx, txI⟩ := head
      have hhead := hlookup (tx, txI) (by simp)
      rw [← h.txIds] at hhead
      rw [BlockFormatter.fmtTxs, hhead] at hfmt
      cases htx : f.txFmt.fmt (some block.height) tx (name (tx, txI)) with
      | error panic => simp [htx] at hfmt
      | ok txFmt =>
          simp only [htx] at hfmt
          have hrest := ih (h.fmtTx htx) (fun tx hmem => hlookup tx (by simp [hmem])) hfmt
          rwa [Rows.append_txsRows] at hrest

/-! ## The transaction ids of a batch -/

section TxIds

variable {α β : Type} [DecidableEq α]

theorem lookup_foldl_insert (entries : List (α × β)) :
    ∀ {m : AList fun _ : α => β} {key : α} {value : β},
      (entries.map (·.1)).Nodup →
      ((key, value) ∈ entries ∨ m.lookup key = some value ∧ key ∉ entries.map (·.1)) →
      (entries.foldl (fun m entry => m.insert entry.1 entry.2) m).lookup key = some value := by
  induction entries with
  | nil =>
      intro m key value _ h
      simpa using h
  | cons head entries ih =>
      intro m key value hnodup h
      rw [List.map_cons, List.nodup_cons] at hnodup
      apply ih hnodup.2
      obtain hmem | ⟨hold, hnot⟩ := h
      · obtain rfl | hmem := List.mem_cons.1 hmem
        · exact .inr ⟨AList.lookup_insert _, hnodup.1⟩
        · exact .inl hmem
      · rw [List.map_cons, List.mem_cons, not_or] at hnot
        exact .inr ⟨by rwa [AList.lookup_insert_ne hnot.1], hnot.2⟩

end TxIds

/-- Every transaction of a batch is found under its height and position. -/
theorem lookup_txIdMapFromBlocks {blocks : List BlockData} (hheights : (blocks.map (·.height)).Nodup)
    (network : Network) {block : BlockData} (hblock : block ∈ blocks) {tx : Transaction × ℕ}
    (htx : tx ∈ block.data.txdata.zipIdx) :
    (txIdMapFromBlocks blocks network).lookup (block.height, tx.2) =
      some (calculateTxIdWithWorkarounds block tx.1 network) := by
  apply lookup_foldl_insert
  · rw [List.map_flatMap, List.nodup_flatMap]
    refine ⟨fun block _ => ?_, ?_⟩
    · rw [List.map_map]
      have hindices : (block.data.txdata.zipIdx.map fun tx => tx.2).Nodup := by
        rw [List.zipIdx_map_snd]
        exact List.nodup_range'
      have hmap := hindices.map (f := fun index => (block.height, index))
        fun left right heq => (Prod.mk.inj heq).2
      simpa only [List.map_map, Function.comp_def] using hmap
    · have hpair := List.pairwise_map.1 hheights
      apply hpair.imp
      intro left right hne key hleft hright
      simp only [List.map_map, List.mem_map, Function.comp_apply] at hleft hright
      obtain ⟨_, _, rfl⟩ := hleft
      obtain ⟨_, _, heq⟩ := hright
      exact hne (Prod.mk.inj heq).1.symm
  · apply Or.inl
    exact List.mem_flatMap.2 ⟨block, hblock, List.mem_map.2 ⟨tx, htx, rfl⟩⟩

theorem map_txs (block : BlockData) (network : Network) :
    (block.data.txdata.zipIdx.map fun tx =>
      (calculateTxIdWithWorkarounds block tx.1 network, tx.1)) = block.txs network := by
  have hfst : block.data.txdata.zipIdx.map Prod.fst = block.data.txdata := List.zipIdx_map_fst _ _
  rw [BlockData.txs]
  conv_rhs => rw [← hfst, List.map_map]
  rfl

/-- The transactions of a block under the names given to them and their positions. -/
def namedTxs (name : BlockData → Transaction × ℕ → Txid) (block : BlockData) :
    List (Txid × Transaction) :=
  block.data.txdata.zipIdx.map fun tx => (name block tx, tx.1)

variable {name : BlockData → Transaction × ℕ → Txid}

/-- One block: its own row and event, and the rows of its transactions. -/
theorem BlockGiven.fmt (h : BlockGiven mode network inputsUtxoMap txIds rows f)
    (hlookup : ∀ tx ∈ block.data.txdata.zipIdx, txIds.lookup (block.height, tx.2) =
      some (name block tx))
    (hfmt : f.fmt block = .ok after) :
    BlockGiven mode network inputsUtxoMap txIds
      (rows.append (rowsBy network inputsUtxoMap (namedTxs name) [block])) after := by
  have hall := (h.fmtOne block).fmtTxs (name block) block.data.txdata.zipIdx hlookup hfmt
  have hrows : (rows.append ⟨[block.hashId], [BlockFormatter.row block], [], [], [], []⟩).append
      (txsRows network inputsUtxoMap block (namedTxs name block)) =
        rows.append (rowsBy network inputsUtxoMap (namedTxs name) [block]) := by
    simp [Rows.append, txsRows, rowsBy]
  rwa [← namedTxs, hrows] at hall

theorem BlockGiven.fmtBlocks (blocks : List BlockData) :
    ∀ {rows f}, BlockGiven mode network inputsUtxoMap txIds rows f →
      (∀ block ∈ blocks, ∀ tx ∈ block.data.txdata.zipIdx, txIds.lookup (block.height, tx.2) =
        some (name block tx)) →
      f.fmtBlocks blocks = .ok after →
      BlockGiven mode network inputsUtxoMap txIds
        (rows.append (rowsBy network inputsUtxoMap (namedTxs name) blocks)) after := by
  induction blocks with
  | nil =>
      intro rows f h _ hfmt
      rw [BlockFormatter.fmtBlocks, Except.ok.injEq] at hfmt
      simpa [Rows.append, rowsBy, ← hfmt] using h
  | cons block blocks ih =>
      intro rows f h hlookup hfmt
      rw [BlockFormatter.fmtBlocks] at hfmt
      cases hblock : f.fmt block with
      | error panic => simp [hblock] at hfmt
      | ok middle =>
          simp only [hblock] at hfmt
          have hrest := ih (h.fmt (hlookup block (by simp)) hblock)
            (fun block hmem => hlookup block (by simp [hmem])) hfmt
          have hrows : (rows.append (rowsBy network inputsUtxoMap (namedTxs name) [block])).append
              (rowsBy network inputsUtxoMap (namedTxs name) blocks) =
                rows.append (rowsBy network inputsUtxoMap (namedTxs name) (block :: blocks)) := by
            simp [Rows.append, rowsBy]
          rwa [hrows] at hrest

/-- The six query strings say exactly the rows of the blocks. -/
structure Saying (mode : Mode) (rows : Rows) (queries : Queries) : Prop where
  event : Say (autoClause mode) rows.event queries.event
  block : Say (autoClause mode) rows.block queries.block
  blockTx : Say (autoClause mode) rows.blockTx queries.blockTx
  tx : Say (txClause mode) rows.tx queries.tx
  output : Say (autoClause mode) rows.output queries.output
  input : Say (autoClause mode) rows.input queries.input

/-- Whatever names the id map gives the transactions, their rows have these names. -/
theorem saying_of_lookup {blocks : List BlockData} {queries : Queries}
    (hlookup : ∀ block ∈ blocks, ∀ tx ∈ block.data.txdata.zipIdx,
      txIds.lookup (block.height, tx.2) = some (name block tx))
    (hfmt : fmtInsertBlockdataSql blocks inputsUtxoMap txIds mode network = .ok queries) :
    Saying mode (rowsBy network inputsUtxoMap (namedTxs name) blocks) queries := by
  rw [fmtInsertBlockdataSql] at hfmt
  cases hblocks : (BlockFormatter.new mode network inputsUtxoMap txIds).fmtBlocks blocks with
  | error panic => simp [hblocks, Except.map] at hfmt
  | ok f =>
      rw [hblocks, Except.map, Except.ok.injEq] at hfmt
      have hgiven := (blockGiven_new mode network inputsUtxoMap txIds).fmtBlocks blocks hlookup
        hblocks
      have hempty : Rows.empty.append (rowsBy network inputsUtxoMap (namedTxs name) blocks) =
          rowsBy network inputsUtxoMap (namedTxs name) blocks := by
        simp [Rows.append, Rows.empty]
      rw [hempty] at hgiven
      subst hfmt
      exact ⟨hgiven.event.drop, hgiven.block.drop, hgiven.blockTx.drop, hgiven.tx.drop,
        hgiven.output.drop, hgiven.input.drop⟩

theorem saying_of_fmt {blocks : List BlockData} {queries : Queries}
    (hheights : (blocks.map (·.height)).Nodup)
    (hfmt : fmtInsertBlockdataSql blocks inputsUtxoMap (txIdMapFromBlocks blocks network) mode
      network = .ok queries) :
    Saying mode (rowsOf network inputsUtxoMap blocks) queries := by
  have hsaying : Saying mode (rowsBy network inputsUtxoMap
      (namedTxs fun block tx => calculateTxIdWithWorkarounds block tx.1 network) blocks) queries :=
    saying_of_lookup
      (fun block hblock tx htx => lookup_txIdMapFromBlocks hheights network hblock htx) hfmt
  have htxs : namedTxs (fun block tx => calculateTxIdWithWorkarounds block tx.1 network) =
      (BlockData.txs · network) := by
    funext block
    exact map_txs block network
  rwa [htxs] at hsaying

end Blocks

/-! ## Formatters that do not panic -/

section Formatting

variable {f after : BlockFormatter} {block : BlockData}

theorem fmtTxs_ok {txs : List (Transaction × ℕ)}
    (hlookup : ∀ tx ∈ txs, (f.txIds.lookup (block.height, tx.2)).isSome)
    (hfee : ∀ tx ∈ txs, ∃ fee, TxFormatter.fee f.txFmt.inputsUtxoMap tx.1 = .ok fee) :
    ∃ after, f.fmtTxs block txs = .ok after ∧ after.txIds = f.txIds ∧
      after.txFmt.inputsUtxoMap = f.txFmt.inputsUtxoMap := by
  induction txs generalizing f with
  | nil => exact ⟨f, rfl, rfl, rfl⟩
  | cons head txs ih =>
      obtain ⟨tx, txI⟩ := head
      obtain ⟨txId, htxId⟩ := Option.isSome_iff_exists.1 (hlookup (tx, txI) (by simp))
      obtain ⟨fee, hfeeHead⟩ := hfee (tx, txI) (by simp)
      simp only [BlockFormatter.fmtTxs, htxId, TxFormatter.fmt, hfeeHead]
      exact ih (fun other hmem => hlookup other (List.mem_cons_of_mem _ hmem))
        fun other hmem => hfee other (List.mem_cons_of_mem _ hmem)

theorem fmtBlocks_ok (blocks : List BlockData)
    (hlookup : ∀ block ∈ blocks, ∀ tx ∈ block.data.txdata.zipIdx,
      (f.txIds.lookup (block.height, tx.2)).isSome)
    (hfee : ∀ block ∈ blocks, ∀ tx ∈ block.data.txdata,
      ∃ fee, TxFormatter.fee f.txFmt.inputsUtxoMap tx = .ok fee) :
    ∃ after, f.fmtBlocks blocks = .ok after := by
  induction blocks generalizing f with
  | nil => exact ⟨f, rfl⟩
  | cons block blocks ih =>
      have hindexed : ∀ tx ∈ block.data.txdata.zipIdx, tx.1 ∈ block.data.txdata := by
        intro tx hmem
        have hfst := List.mem_map_of_mem (f := Prod.fst) hmem
        rwa [List.zipIdx_map_fst] at hfst
      obtain ⟨middle, hmiddle, hids, hmap⟩ := fmtTxs_ok (f := f.fmtOne block)
        (hlookup block (by simp)) fun tx hmem => hfee block (by simp) tx.1 (hindexed tx hmem)
      simp only [BlockFormatter.fmtBlocks, BlockFormatter.fmt, hmiddle]
      apply ih
      · rw [hids]
        exact fun other hmem => hlookup other (List.mem_cons_of_mem _ hmem)
      · rw [hmap]
        exact fun other hmem => hfee other (List.mem_cons_of_mem _ hmem)

/-- The formatter has found a fee for every transaction. -/
theorem fees_of_fmtTxs {block : BlockData} (txs : List (Transaction × ℕ)) :
    ∀ {f formatted : BlockFormatter}, f.fmtTxs block txs = .ok formatted →
      (∀ tx ∈ txs, ∃ fee, TxFormatter.fee f.txFmt.inputsUtxoMap tx.1 = .ok fee) ∧
        formatted.txFmt.inputsUtxoMap = f.txFmt.inputsUtxoMap := by
  induction txs with
  | nil =>
      intro f formatted hfmt
      rw [BlockFormatter.fmtTxs, Except.ok.injEq] at hfmt
      simp [hfmt]
  | cons head txs ih =>
      intro f formatted hfmt
      obtain ⟨tx, txI⟩ := head
      rw [BlockFormatter.fmtTxs] at hfmt
      cases hid : f.txIds.lookup (block.height, txI) with
      | none => simp [hid] at hfmt
      | some txId =>
          cases hfee : TxFormatter.fee f.txFmt.inputsUtxoMap tx with
          | error panic => simp [hid, TxFormatter.fmt, hfee] at hfmt
          | ok fee =>
              simp only [hid, TxFormatter.fmt, hfee] at hfmt
              obtain ⟨hfees, hsame⟩ := ih hfmt
              exact ⟨List.forall_mem_cons.2 ⟨⟨fee, hfee⟩, hfees⟩, hsame⟩

theorem fees_of_fmtBlocks (blocks : List BlockData) :
    ∀ {f formatted : BlockFormatter}, f.fmtBlocks blocks = .ok formatted →
      ∀ block ∈ blocks, ∀ tx ∈ block.data.txdata,
        ∃ fee, TxFormatter.fee f.txFmt.inputsUtxoMap tx = .ok fee := by
  induction blocks with
  | nil => exact fun _ _ hmem => absurd hmem List.not_mem_nil
  | cons head blocks ih =>
      intro f formatted hfmt
      rw [BlockFormatter.fmtBlocks] at hfmt
      cases hhead : f.fmt head with
      | error panic => simp [hhead] at hfmt
      | ok middle =>
          simp only [hhead] at hfmt
          obtain ⟨hfees, hsame⟩ := fees_of_fmtTxs _ hhead
          have hrest := ih hfmt
          rw [hsame] at hrest
          refine List.forall_mem_cons.2 ⟨fun tx htx => ?_, hrest⟩
          rw [← List.zipIdx_map_fst 0 head.data.txdata] at htx
          obtain ⟨indexed, hindexed, rfl⟩ := List.mem_map.1 htx
          exact hfees indexed hindexed

end Formatting

/-! ## Properties of all six formatters -/

/-- `P` holds of the writer of each table. -/
structure Everywhere (P : ∀ {ρ : Type}, MultiValueSqlFormatter ρ → Prop) (f : BlockFormatter) :
    Prop where
  event : P f.event
  block : P f.block
  blockTx : P f.blockTxFmt
  tx : P f.txFmt.tx
  output : P f.txFmt.outputFmt
  input : P f.txFmt.inputFmt

section Everywhere

variable {P : ∀ {ρ : Type}, MultiValueSqlFormatter ρ → Prop} {f after : BlockFormatter}
variable {block : BlockData}

theorem holds_foldl (hvalue : ∀ {ρ : Type} {f : MultiValueSqlFormatter ρ} (value : ρ), P f →
    P (f.fmtWith value)) {α ρ : Type} (row : α → ρ) (values : List α) :
    ∀ {f : MultiValueSqlFormatter ρ}, P f →
      P (values.foldl (fun f value => f.fmtWith (row value)) f) := by
  induction values with
  | nil => exact fun h => h
  | cons value values ih => exact fun h => ih (hvalue (row value) h)

theorem Everywhere.fmtTxs (hvalue : ∀ {ρ : Type} {f : MultiValueSqlFormatter ρ} (value : ρ), P f →
    P (f.fmtWith value)) (txs : List (Transaction × ℕ)) :
    ∀ {f}, Everywhere P f → f.fmtTxs block txs = .ok after → Everywhere P after := by
  induction txs with
  | nil =>
      intro f h hfmt
      rw [BlockFormatter.fmtTxs, Except.ok.injEq] at hfmt
      rwa [← hfmt]
  | cons head txs ih =>
      intro f h hfmt
      obtain ⟨tx, txI⟩ := head
      rw [BlockFormatter.fmtTxs] at hfmt
      cases hid : f.txIds.lookup (block.height, txI) with
      | none => simp [hid] at hfmt
      | some txId =>
          cases hfee : TxFormatter.fee f.txFmt.inputsUtxoMap tx with
          | error panic => simp [hid, TxFormatter.fmt, hfee] at hfmt
          | ok fee =>
              simp only [hid, TxFormatter.fmt, hfee] at hfmt
              refine ih ?_ hfmt
              refine ⟨h.event, h.block, hvalue _ h.blockTx, hvalue _ h.tx,
                holds_foldl hvalue _ _ h.output, ?_⟩
              split
              · exact h.input
              · exact holds_foldl hvalue _ _ h.input

theorem Everywhere.fmtBlocks (hvalue : ∀ {ρ : Type} {f : MultiValueSqlFormatter ρ} (value : ρ),
    P f → P (f.fmtWith value)) (blocks : List BlockData) :
    ∀ {f}, Everywhere P f → f.fmtBlocks blocks = .ok after → Everywhere P after := by
  induction blocks with
  | nil =>
      intro f h hfmt
      rw [BlockFormatter.fmtBlocks, Except.ok.injEq] at hfmt
      rwa [← hfmt]
  | cons block blocks ih =>
      intro f h hfmt
      rw [BlockFormatter.fmtBlocks] at hfmt
      have hone : Everywhere P (f.fmtOne block) :=
        ⟨hvalue _ h.event, hvalue _ h.block, h.blockTx, h.tx, h.output, h.input⟩
      cases hblock : f.fmt block with
      | error panic => simp [hblock] at hfmt
      | ok middle =>
          simp only [hblock] at hfmt
          exact ih (hone.fmtTxs hvalue block.data.txdata.zipIdx hblock) hfmt

end Everywhere

end BitcoinIndexer.StoredRows
