import BitcoinIndexer.Db.QueryTables
import BitcoinIndexer.Db.Rows

/-!
# Reading the queries back

The strings of the writers are those of the statements the formatters of rows close.  A parser
reads these statements, and their values are those of the rows.
-/

namespace BitcoinIndexer.QueryText

open BitcoinIndexer.Types
open BitcoinIndexer.Tables
open BitcoinIndexer.SqlText
open BitcoinIndexer.StoredRows
open BitcoinIndexer.Formatter (sqlInsertValuesSize UtxoDetailsMap TxIdMap)

/-! ## The strings of the formatters -/

def clauseText : OnConflict → List Char
  | .raise => []
  | .doNothing => chars "ON CONFLICT DO NOTHING"
  | .updateCurrentHeight =>
      chars "ON CONFLICT (hash_id) DO UPDATE SET current_height = EXCLUDED.current_height"

def clauseTokens : OnConflict → List Token
  | .raise => []
  | .doNothing =>
      [.word "ON".toList, .word "CONFLICT".toList, .word "DO".toList, .word "NOTHING".toList]
  | .updateCurrentHeight =>
      [.word "ON".toList, .word "CONFLICT".toList, .leftParen, .word "hash_id".toList, .rightParen,
        .word "DO".toList, .word "UPDATE".toList, .word "SET".toList,
        .word "current_height".toList, .equals, .word "EXCLUDED".toList, .dot,
        .word "current_height".toList]

theorem readsAs_clause (clause : OnConflict) :
    ReadsAs (clauseText clause) (clauseTokens clause) := by
  cases clause with
  | raise => exact readsAs_nil
  | doNothing =>
      exact ⟨[.word "ON".toList, .word "CONFLICT".toList, .word "DO".toList],
        .word "NOTHING".toList, [.word "NOTHING".toList], by decide, rfl, rfl⟩
  | updateCurrentHeight =>
      exact ⟨(clauseTokens .updateCurrentHeight).dropLast, .word "current_height".toList,
        [.word "current_height".toList], by decide, rfl, by decide⟩

namespace Table

variable {ρ : Type}

def openText (t : Table ρ) (rows : List ρ) : List Char :=
  t.opening ++ joined ',' (rows.map t.valueText)

def statementText (t : Table ρ) (statement : Insert ρ) : List Char :=
  t.openText statement.values ++ clauseText statement.onConflict ++ [';']

/-- The writer of text that has done what a formatter of rows has. -/
def render (t : Table ρ) (f : Formatter.MultiValueSqlFormatter ρ) : MultiValueSqlFormatter where
  out := (f.out.map t.statementText).flatten ++
    if f.queryValues = [] then [] else t.openText f.queryValues
  opening := t.opening
  onConflict := clauseText f.onConflict
  queryValuesCount := f.queryValues.length

variable {t : Table ρ} {f : Formatter.MultiValueSqlFormatter ρ}

theorem render_terminateQuery (hopen : f.queryValues ≠ []) :
    (t.render f).terminateQuery = t.render f.terminateQuery := by
  simp [render, MultiValueSqlFormatter.terminateQuery, hopen, statementText, chars,
    Formatter.MultiValueSqlFormatter.terminateQuery]

theorem render_maybeTerminateQuery :
    (t.render f).maybeTerminateQuery = t.render f.maybeTerminateQuery := by
  rw [MultiValueSqlFormatter.maybeTerminateQuery,
    Formatter.MultiValueSqlFormatter.maybeTerminateQuery]
  by_cases hlong : f.queryValues.length > sqlInsertValuesSize
  · have hopen : f.queryValues ≠ [] := by
      intro hnil
      simp [hnil] at hlong
    have hcount : (t.render f).queryValuesCount > sqlInsertValuesSize := hlong
    rw [if_pos hcount, if_pos hlong, render_terminateQuery hopen]
  · have hcount : ¬ (t.render f).queryValuesCount > sqlInsertValuesSize := hlong
    rw [if_neg hcount, if_neg hlong]

/-- One more value: the first one follows the opening, any other a comma. -/
theorem render_fmtWith (value : ρ) :
    (t.render f).fmtWith (t.valueText value) = t.render (f.fmtWith value) := by
  have hone : ∀ f : Formatter.MultiValueSqlFormatter ρ,
      { t.render f with
        out := (t.render f).out ++ (t.render f).separator ++ t.valueText value
        queryValuesCount := (t.render f).queryValuesCount + 1 } =
        t.render { f with queryValues := f.queryValues ++ [value] } := by
    intro f
    by_cases hnil : f.queryValues = []
    · simp [render, MultiValueSqlFormatter.separator, hnil, openText, joined]
    · have hmap : f.queryValues.map t.valueText ≠ [] := by simpa using hnil
      simp [render, MultiValueSqlFormatter.separator, hnil, openText, joined_append ',' hmap]
  rw [MultiValueSqlFormatter.fmtWith, render_maybeTerminateQuery, hone]
  rfl

theorem render_foldl {α : Type} (row : α → ρ) (values : List α) :
    ∀ f : Formatter.MultiValueSqlFormatter ρ,
      values.foldl (fun f value => f.fmtWith (t.valueText (row value))) (t.render f) =
        t.render (values.foldl (fun f value => f.fmtWith (row value)) f) := by
  induction values with
  | nil => exact fun f => rfl
  | cons value values ih =>
      intro f
      rw [List.foldl_cons, List.foldl_cons, render_fmtWith, ih]

theorem render_drop : (t.render f).drop = (f.drop.map t.statementText).flatten := by
  rw [MultiValueSqlFormatter.drop, Formatter.MultiValueSqlFormatter.drop]
  by_cases hopen : f.queryValues = []
  · simp [render, hopen]
  · have hpos : f.queryValues.length > 0 := List.length_pos_iff.2 hopen
    have hcount : (t.render f).queryValuesCount > 0 := hpos
    rw [if_pos hcount, if_pos hpos, render_terminateQuery hopen]
    simp [render, Formatter.MultiValueSqlFormatter.terminateQuery]

end Table

section Simulation

variable (display : Address → List Char)

def renderTx (table : Table TxRow) (fromMempool : Bool) (f : Formatter.TxFormatter) :
    TxFormatter where
  tx := table.render f.tx
  outputFmt := (outputTable display).render f.outputFmt
  inputFmt := inputTable.render f.inputFmt
  network := f.network
  inputsUtxoMap := f.inputsUtxoMap
  fromMempool := fromMempool

def renderBlock (f : Formatter.BlockFormatter) : BlockFormatter where
  event := eventTable.render f.event
  block := blockTable.render f.block
  txFmt := renderTx display txTable false f.txFmt
  blockTxFmt := blockTxTable.render f.blockTxFmt
  txIds := f.txIds

theorem renderBlock_new (mode : Mode) (network : Network) (inputsUtxoMap : UtxoDetailsMap)
    (txIds : TxIdMap) :
    renderBlock display (.new mode network inputsUtxoMap txIds) =
      .new mode network inputsUtxoMap txIds := by
  cases mode <;> rfl

theorem renderTx_fmt {table : Table TxRow} {fromMempool : Bool} {blockHeight : Option BlockHeight}
    {tx : Transaction} {txId : Sha256dHash}
    (hvalue : ∀ fee, TxFormatter.value fromMempool blockHeight tx txId fee =
      table.valueText (Formatter.TxFormatter.row blockHeight tx txId fee))
    (f : Formatter.TxFormatter) :
    (renderTx display table fromMempool f).fmt display blockHeight tx txId =
      (f.fmt blockHeight tx txId).map (renderTx display table fromMempool) := by
  rw [TxFormatter.fmt, Formatter.TxFormatter.fmt]
  have hmap : (renderTx display table fromMempool f).inputsUtxoMap = f.inputsUtxoMap := rfl
  rw [hmap]
  cases hfee : Formatter.TxFormatter.fee f.inputsUtxoMap tx with
  | error panic => rfl
  | ok fee =>
      have houtput := (outputTable display).render_foldl
        (fun output : TxOut × ℕ =>
          Formatter.OutputFormatter.row f.network txId output.1 output.2)
        tx.output.zipIdx f.outputFmt
      have hinput := inputTable.render_foldl (Formatter.InputFormatter.row txId) tx.input f.inputFmt
      cases tx.isCoinBase <;>
        simp [renderTx, TxFormatter.fmtOne, Except.map, hvalue, Table.render_fmtWith,
          outputValue_eq, inputValue_eq, houtput, hinput]

/-- The strings of the mempool indexer are those of its queries. -/
theorem fmtInMempool_eq (tx : Transaction) (txId : Sha256dHash) (network : Network)
    (inputsUtxoMap : UtxoDetailsMap) :
    (TxFormatter.newForInMempool network inputsUtxoMap).fmt display none tx txId =
      ((Formatter.TxFormatter.newForInMempool network inputsUtxoMap).fmt none tx txId).map
        (renderTx display mempoolTxTable true) :=
  renderTx_fmt display (mempoolValue_eq none tx txId)
    (Formatter.TxFormatter.newForInMempool network inputsUtxoMap)

theorem renderBlock_fmtTxs (block : BlockData) (txs : List (Transaction × ℕ)) :
    ∀ f : Formatter.BlockFormatter,
      (renderBlock display f).fmtTxs display block txs =
        (f.fmtTxs block txs).map (renderBlock display) := by
  induction txs with
  | nil => exact fun f => rfl
  | cons head txs ih =>
      intro f
      obtain ⟨tx, txI⟩ := head
      rw [BlockFormatter.fmtTxs, Formatter.BlockFormatter.fmtTxs]
      have hids : (renderBlock display f).txIds = f.txIds := rfl
      rw [hids]
      cases hid : f.txIds.lookup (block.height, txI) with
      | none => rfl
      | some txId =>
          have htx : (renderBlock display f).txFmt.fmt display (some block.height) tx txId =
              (f.txFmt.fmt (some block.height) tx txId).map (renderTx display txTable false) :=
            renderTx_fmt display (txValue_eq (some block.height) tx txId) f.txFmt
          simp only [htx]
          cases hfmt : f.txFmt.fmt (some block.height) tx txId with
          | error panic => rfl
          | ok txFmt =>
              have hnext := ih { f with
                txFmt := txFmt
                blockTxFmt := f.blockTxFmt.fmtWith (Formatter.BlockTxFormatter.row block txId) }
              rw [renderBlock, ← Table.render_fmtWith, ← blockTxValue_eq] at hnext
              exact hnext

theorem renderBlock_fmt (block : BlockData) (f : Formatter.BlockFormatter) :
    (renderBlock display f).fmt display block = (f.fmt block).map (renderBlock display) := by
  have hone : (renderBlock display f).fmtOne block = renderBlock display (f.fmtOne block) := by
    simp [renderBlock, BlockFormatter.fmtOne, Formatter.BlockFormatter.fmtOne, eventValue_eq,
      blockValue_eq, Table.render_fmtWith]
  rw [BlockFormatter.fmt, hone, renderBlock_fmtTxs]
  rfl

theorem renderBlock_fmtBlocks (blocks : List BlockData) :
    ∀ f : Formatter.BlockFormatter,
      (renderBlock display f).fmtBlocks display blocks =
        (f.fmtBlocks blocks).map (renderBlock display) := by
  induction blocks with
  | nil => exact fun f => rfl
  | cons block blocks ih =>
      intro f
      rw [BlockFormatter.fmtBlocks, Formatter.BlockFormatter.fmtBlocks, renderBlock_fmt]
      cases hfmt : f.fmt block with
      | error panic => rfl
      | ok middle => exact ih middle

def queryStrings (queries : Formatter.Queries) : QueryStrings where
  event := (queries.event.map eventTable.statementText).flatten
  block := (queries.block.map blockTable.statementText).flatten
  blockTx := (queries.blockTx.map blockTxTable.statementText).flatten
  tx := (queries.tx.map txTable.statementText).flatten
  output := (queries.output.map (outputTable display).statementText).flatten
  input := (queries.input.map inputTable.statementText).flatten

/-- The strings the code builds are those of the queries, and it panics where they do. -/
theorem fmtInsertBlockdataSql_eq (blocks : List BlockData) (inputsUtxoMap : UtxoDetailsMap)
    (txIds : TxIdMap) (mode : Mode) (network : Network) :
    fmtInsertBlockdataSql display blocks inputsUtxoMap txIds mode network =
      (Formatter.fmtInsertBlockdataSql blocks inputsUtxoMap txIds mode network).map
        (queryStrings display) := by
  rw [fmtInsertBlockdataSql, Formatter.fmtInsertBlockdataSql, ← renderBlock_new display,
    renderBlock_fmtBlocks]
  cases hblocks : (Formatter.BlockFormatter.new mode network inputsUtxoMap txIds).fmtBlocks
      blocks with
  | error panic => rfl
  | ok f =>
      have hdrop : (renderBlock display f).drop = queryStrings display f.drop := by
        simp [BlockFormatter.drop, renderBlock, renderTx, queryStrings,
          Formatter.BlockFormatter.drop, Table.render_drop]
      simp only [Except.map, hdrop]

end Simulation

/-! ## Reading the strings -/

/-- The values of all statements in order. -/
def decode (statements : List Statement) : Option (List (List SqlValue)) :=
  (statements.flatMap (·.rows)).mapM fun row => row.mapM SqlValue.ofTokens

namespace Table

variable {ρ : Type} {t : Table ρ} {clause : OnConflict} {rows : List ρ}

/-- `text` is a sequence of statements for the table, each with values and the conflict clause
`clause`, and their values are those of `rows`. -/
def Says (t : Table ρ) (clause : OnConflict) (rows : List ρ) (text : List Char) : Prop :=
  ∃ statements, parse text = some statements ∧
    (∀ statement ∈ statements, statement.table = t.name ∧ statement.columns = t.columns ∧
      statement.rows ≠ [] ∧ statement.onConflict = clauseTokens clause) ∧
    decode statements = some (rows.map t.values)

def rowOf (t : Table ρ) (row : ρ) : Row := (t.values row).map SqlValue.tokens

def statement (t : Table ρ) (insert : Insert ρ) : Statement where
  table := t.name
  columns := t.columns
  rows := insert.values.map t.rowOf
  onConflict := clauseTokens insert.onConflict

theorem wellFormed_statement {insert : Insert ρ} (hne : insert.values ≠ []) :
    WellFormed (t.statement insert) where
  columns := t.columns_ne
  rows := by simpa [statement] using hne
  plain := by
    have hfields : ∀ row ∈ (t.statement insert).rows, ∀ field ∈ row,
        ∃ value : SqlValue, value.tokens = field := by
      intro row hrow field hfield
      obtain ⟨inserted, -, rfl⟩ := List.mem_map.1 hrow
      obtain ⟨value, -, rfl⟩ := List.mem_map.1 hfield
      exact ⟨value, rfl⟩
    refine ⟨?_, ?_, ?_⟩
    · intro row hrow field hfield
      obtain ⟨value, rfl⟩ := hfields row hrow field hfield
      exact value.balanced_tokens
    · intro row hrow field hfield
      obtain ⟨value, rfl⟩ := hfields row hrow field hfield
      exact value.semicolon_not_mem_tokens
    · intro row hrow
      obtain ⟨inserted, -, rfl⟩ := List.mem_map.1 hrow
      simpa [rowOf] using t.values_ne inserted
  clause := by cases hclause : insert.onConflict <;> simp [statement, hclause, clauseTokens]
  closed := by cases hclause : insert.onConflict <;> simp [statement, hclause, clauseTokens]

theorem writes_statementText {insert : Insert ρ} (hne : insert.values ≠ [])
    (hquotable : ∀ row ∈ insert.values, ∀ value ∈ t.values row, value.Quotable) :
    Writes (t.statementText insert) (t.statement insert) := by
  have hrows : List.Forall₂ (List.Forall₂ ReadsAs)
      (insert.values.map fun row => (t.values row).map SqlValue.write)
      (t.statement insert).rows := by
    rw [statement, List.forall₂_map_left_iff, List.forall₂_map_right_iff, List.forall₂_same]
    intro row hrow
    rw [rowOf, List.forall₂_map_left_iff, List.forall₂_map_right_iff, List.forall₂_same]
    exact fun value hmem => SqlValue.readsAs_write (hquotable row hrow value hmem)
  have hwrites := writes_statement (wellFormed_statement hne) t.reads hrows
    (readsAs_clause insert.onConflict)
  rwa [List.map_map] at hwrites

theorem says_of_say {statements : List (Insert ρ)} (hsay : Say clause rows statements)
    (hfilled : ∀ insert ∈ statements, insert.values ≠ [])
    (hquotable : ∀ row ∈ rows, ∀ value ∈ t.values row, value.Quotable) :
    t.Says clause rows (statements.map t.statementText).flatten := by
  have hwrites : List.Forall₂ Writes (statements.map t.statementText)
      (statements.map t.statement) := by
    rw [List.forall₂_map_left_iff, List.forall₂_map_right_iff, List.forall₂_same]
    intro insert hinsert
    apply writes_statementText (hfilled insert hinsert)
    intro row hrow
    apply hquotable
    rw [← hsay.values]
    exact List.mem_flatMap.2 ⟨insert, hinsert, hrow⟩
  refine ⟨statements.map t.statement, parse_flatten hwrites, ?_, ?_⟩
  · intro statement hmem
    obtain ⟨insert, hinsert, rfl⟩ := List.mem_map.1 hmem
    refine ⟨rfl, rfl, ?_, congrArg clauseTokens (hsay.clauses insert hinsert)⟩
    simpa [Table.statement] using hfilled insert hinsert
  · have hrows : (statements.map t.statement).flatMap (·.rows) = rows.map t.rowOf := by
      rw [← hsay.values, List.map_flatMap, List.flatMap_map]
      rfl
    have hone : ∀ row, (t.rowOf row).mapM SqlValue.ofTokens = some (t.values row) := by
      intro row
      simpa [rowOf] using mapM_map SqlValue.ofTokens_tokens (t.values row)
    rw [decode, hrows]
    exact mapM_map hone rows

end Table

/-- No statement is closed before it has a value. -/
def Filled {ρ : Type} (f : Formatter.MultiValueSqlFormatter ρ) : Prop :=
  ∀ insert ∈ f.out, insert.values ≠ []

section Filled

variable {ρ : Type} {f : Formatter.MultiValueSqlFormatter ρ}

theorem Filled.terminateQuery (h : Filled f) (hopen : f.queryValues ≠ []) :
    Filled f.terminateQuery := by
  intro insert hmem
  obtain hold | hnew := List.mem_append.1 hmem
  · exact h insert hold
  · rw [List.mem_singleton.1 hnew]
    exact hopen

theorem Filled.fmtWith (value : ρ) (h : Filled f) : Filled (f.fmtWith value) := by
  change Filled f.maybeTerminateQuery
  rw [Formatter.MultiValueSqlFormatter.maybeTerminateQuery]
  split
  · next hlong =>
      apply h.terminateQuery
      intro hnil
      simp [hnil] at hlong
  · exact h

theorem Filled.drop (h : Filled f) : ∀ insert ∈ f.drop, insert.values ≠ [] := by
  rw [Formatter.MultiValueSqlFormatter.drop]
  split
  · next hopen => exact h.terminateQuery (List.length_pos_iff.1 hopen)
  · exact h

end Filled

/-! ## The queries of a batch -/

/-- The maps have every transaction and every spent output of the blocks, and no transaction is
worth more than its inputs. -/
structure Covers (blocks : List BlockData) (inputsUtxoMap : UtxoDetailsMap) (txIds : TxIdMap)
    (name : BlockHeight → ℕ → Txid) : Prop where
  txIds : ∀ block ∈ blocks, ∀ tx ∈ block.data.txdata.zipIdx,
    txIds.lookup (block.height, tx.2) = some (name block.height tx.2)
  outputs : ∀ block ∈ blocks, ∀ tx ∈ block.data.txdata, tx.isCoinBase = false →
    ∀ input ∈ tx.input, (inputsUtxoMap.lookup (.ofOutPoint input.previousOutput)).isSome
  funded : ∀ block ∈ blocks, ∀ tx ∈ block.data.txdata, tx.isCoinBase = false →
    (tx.output.map (·.value)).sum ≤ (tx.input.map (spentValue inputsUtxoMap)).sum

variable {blocks : List BlockData} {inputsUtxoMap : UtxoDetailsMap} {txIds : TxIdMap}
variable {name : BlockHeight → ℕ → Txid}

theorem inputValueSum_ok {inputs : List TxIn}
    (h : ∀ input ∈ inputs, (inputsUtxoMap.lookup (.ofOutPoint input.previousOutput)).isSome) :
    Formatter.TxFormatter.inputValueSum inputsUtxoMap inputs =
      .ok (inputs.map (spentValue inputsUtxoMap)).sum := by
  induction inputs with
  | nil => rfl
  | cons input inputs ih =>
      obtain ⟨entry, hentry⟩ := Option.isSome_iff_exists.1 (h input List.mem_cons_self)
      have hrest := ih fun other hmem => h other (List.mem_cons_of_mem _ hmem)
      simp [Formatter.TxFormatter.inputValueSum, spentValue, hentry, hrest, Except.map]

theorem Covers.fee_ok (h : Covers blocks inputsUtxoMap txIds name) {block : BlockData}
    (hblock : block ∈ blocks) {tx : Transaction} (htx : tx ∈ block.data.txdata) :
    ∃ fee, Formatter.TxFormatter.fee inputsUtxoMap tx = .ok fee := by
  cases hcoinbase : tx.isCoinBase with
  | true => exact ⟨0, by simp [Formatter.TxFormatter.fee, hcoinbase]⟩
  | false =>
      have hsum := inputValueSum_ok (h.outputs block hblock tx htx hcoinbase)
      have hfunded : Formatter.TxFormatter.outputValueSum tx.output ≤
          (tx.input.map (spentValue inputsUtxoMap)).sum := h.funded block hblock tx htx hcoinbase
      exact ⟨_, by simp [Formatter.TxFormatter.fee, hcoinbase, hsum, hfunded]; rfl⟩

/-- The rows of the blocks, under the ids of the map. -/
def rowsUnder (name : BlockHeight → ℕ → Txid) (network : Network)
    (inputsUtxoMap : UtxoDetailsMap) (blocks : List BlockData) : Rows :=
  rowsBy network inputsUtxoMap (namedTxs fun block tx => name block.height tx.2) blocks

theorem mem_output_rows {network : Network} {row : OutputRow}
    (hmem : row ∈ (rowsUnder name network inputsUtxoMap blocks).output) :
    ∃ block ∈ blocks, ∃ tx ∈ block.data.txdata, ∃ output ∈ tx.output,
      row.address = addressFromScript output.scriptPubkey network := by
  obtain ⟨block, hblock, hrow⟩ := List.mem_flatMap.1 hmem
  obtain ⟨tx, htx, hrow⟩ := List.mem_flatMap.1 hrow
  obtain ⟨indexed, hindexed, rfl⟩ := List.mem_map.1 htx
  obtain ⟨output, houtput, rfl⟩ := List.mem_map.1 hrow
  have htx' := List.fst_mem_of_mem_zipIdx hindexed
  have houtput' := List.fst_mem_of_mem_zipIdx houtput
  exact ⟨block, hblock, indexed.1, htx', output.1, houtput', rfl⟩

/-- The six strings are sequences of complete statements, all with values and with the clause of
the mode, and say what the blocks contain. -/
theorem query_strings_say_blocks (display : Address → List Char) (blocks : List BlockData)
    (inputsUtxoMap : UtxoDetailsMap) (txIds : TxIdMap) (mode : Mode) (network : Network)
    (name : BlockHeight → ℕ → Txid) (hcovers : Covers blocks inputsUtxoMap txIds name)
    (hquote : ∀ block ∈ blocks, ∀ tx ∈ block.data.txdata, ∀ output ∈ tx.output,
      ∀ address ∈ addressFromScript output.scriptPubkey network, quote ∉ display address) :
    ∃ strings, fmtInsertBlockdataSql display blocks inputsUtxoMap txIds mode network =
        .ok strings ∧
      eventTable.Says (autoClause mode)
        (rowsUnder name network inputsUtxoMap blocks).event strings.event ∧
      blockTable.Says (autoClause mode)
        (rowsUnder name network inputsUtxoMap blocks).block strings.block ∧
      blockTxTable.Says (autoClause mode)
        (rowsUnder name network inputsUtxoMap blocks).blockTx strings.blockTx ∧
      txTable.Says (txClause mode)
        (rowsUnder name network inputsUtxoMap blocks).tx strings.tx ∧
      (outputTable display).Says (autoClause mode)
        (rowsUnder name network inputsUtxoMap blocks).output strings.output ∧
      inputTable.Says (autoClause mode)
        (rowsUnder name network inputsUtxoMap blocks).input strings.input := by
  obtain ⟨f, hf⟩ := fmtBlocks_ok (f := .new mode network inputsUtxoMap txIds) blocks
    (fun block hblock tx htx => Option.isSome_iff_exists.2 ⟨_, hcovers.txIds block hblock tx htx⟩)
    fun block hblock tx htx => hcovers.fee_ok hblock htx
  have hqueries : Formatter.fmtInsertBlockdataSql blocks inputsUtxoMap txIds mode network =
      .ok f.drop := by
    rw [Formatter.fmtInsertBlockdataSql, hf]
    rfl
  have hsaying : Saying mode (rowsUnder name network inputsUtxoMap blocks) f.drop :=
    saying_of_lookup hcovers.txIds hqueries
  have hnew : Everywhere Filled (.new mode network inputsUtxoMap txIds) := by
    cases mode <;> constructor <;> intro insert hmem <;> cases hmem
  have hfilled : Everywhere Filled f := hnew.fmtBlocks Filled.fmtWith blocks hf
  have haddress : ∀ row ∈ (rowsUnder name network inputsUtxoMap blocks).output,
      ∀ value ∈ (outputTable display).values row, value.Quotable := by
    intro row hrow
    obtain ⟨block, hblock, tx, htx, output, houtput, heq⟩ := mem_output_rows hrow
    have hdisplayed : (nullable (fun address => .string (display address))
        row.address).Quotable := by
      apply quotable_nullable
      rw [heq]
      intro value hvalue
      obtain ⟨address, haddress, rfl⟩ := Option.mem_map.1 hvalue
      exact hquote block hblock tx htx output houtput address haddress
    simp [outputTable, hdisplayed]
  have hheight : ∀ row : TxRow, (nullable SqlValue.number row.currentHeight).Quotable := by
    intro row
    apply quotable_nullable
    intro value hvalue
    obtain ⟨height, -, rfl⟩ := Option.mem_map.1 hvalue
    trivial
  refine ⟨queryStrings display f.drop, by rw [fmtInsertBlockdataSql_eq, hqueries]; rfl,
    Table.says_of_say hsaying.event hfilled.event.drop ?_,
    Table.says_of_say hsaying.block hfilled.block.drop ?_,
    Table.says_of_say hsaying.blockTx hfilled.blockTx.drop ?_,
    Table.says_of_say hsaying.tx hfilled.tx.drop ?_,
    Table.says_of_say hsaying.output hfilled.output.drop haddress,
    Table.says_of_say hsaying.input hfilled.input.drop ?_⟩
  · simp [eventTable]
  · simp [blockTable]
  · simp [blockTxTable]
  · simp [txTable, hheight]
  · simp [inputTable]

/-- A block with a coinbase and a transaction that spends from an earlier one. -/
def spendingBlock : BlockData where
  height := 7
  id := ⟨List.replicate 32 7, rfl⟩
  data :=
    { header := ⟨⟨List.replicate 32 6, rfl⟩, ⟨List.replicate 32 9, rfl⟩, 1231006505⟩
      txdata :=
        [⟨⟨List.replicate 32 1, rfl⟩, 500, 0, [⟨⟨⟨List.replicate 32 0, rfl⟩, 2 ^ 32 - 1⟩, []⟩],
            [⟨50, ⟨some "1A"⟩⟩]⟩,
          ⟨⟨List.replicate 32 2, rfl⟩, 800, 0, [⟨⟨⟨List.replicate 32 3, rfl⟩, 0⟩, [[1]]⟩],
            [⟨20, ⟨some "1B"⟩⟩, ⟨9, ⟨none⟩⟩]⟩] }

theorem spending_strings_say_block :
    ∃ strings, fmtInsertBlockdataSql (·.payload.toList) [spendingBlock]
        ((∅ : UtxoDetailsMap).insert ⟨List.replicate 16 3, 0⟩ ⟨30⟩)
        (Formatter.txIdMapFromBlocks [spendingBlock] .bitcoin) .normal .bitcoin = .ok strings ∧
      (outputTable (·.payload.toList)).Says .doNothing
        [⟨50, 0, List.replicate 16 1, some ⟨"1A", .bitcoin⟩⟩,
          ⟨20, 0, List.replicate 16 2, some ⟨"1B", .bitcoin⟩⟩, ⟨9, 1, List.replicate 16 2, none⟩]
        strings.output := by
  have hcovers : Covers [spendingBlock]
      ((∅ : UtxoDetailsMap).insert ⟨List.replicate 16 3, 0⟩ ⟨30⟩)
      (Formatter.txIdMapFromBlocks [spendingBlock] .bitcoin)
      fun _ txI => ⟨List.replicate 32 (if txI = 0 then 1 else 2), by simp⟩ :=
    ⟨by decide, by decide, by decide⟩
  obtain ⟨strings, hok, -, -, -, -, houtput, -⟩ := query_strings_say_blocks (·.payload.toList)
    [spendingBlock] _ _ .normal .bitcoin _ hcovers (by decide)
  exact ⟨strings, hok, houtput⟩

end BitcoinIndexer.QueryText
