import BitcoinIndexer.Db.Rows

/-!
# Executing the queries of a batch

Each query string inserts its rows as one statement would; the six of a batch touch
one table each.
-/

namespace BitcoinIndexer.Execution

open BitcoinIndexer.Types
open BitcoinIndexer.Tables
open BitcoinIndexer.Formatter
open BitcoinIndexer.KeyedTable
open BitcoinIndexer.StoredRows

/-! ## Event rows -/

theorem eventRows_append (revert : Bool) (seq : ℕ) (left right : List HashId) :
    eventRows revert seq (left ++ right) =
      eventRows revert seq left ++ eventRows revert (seq + left.length) right := by
  induction left generalizing seq with
  | nil => rfl
  | cons hashId left ih => simp [eventRows, ih, Nat.add_assoc, Nat.add_comm 1]

theorem insertEvents_append (revert : Bool) (left right : List HashId) (db : Db) :
    db.insertEvents revert (left ++ right) =
      (db.insertEvents revert left).insertEvents revert right := by
  simp [Db.insertEvents, eventRows_append, Nat.add_assoc]

/-! ## One query string -/

/-- A table of the database. -/
structure Column (ρ : Type) where
  rows : Db → List ρ
  set : List ρ → Db → Db
  rows_set : ∀ table db, rows (set table db) = table
  set_set : ∀ table other db, set table (set other db) = set table db
  set_rows : ∀ db, set (rows db) db = db
  schema_set : ∀ table db, (set table db).schema = db.schema

/-- The outcome of inserting rows into a table. -/
def Column.put {ρ : Type} (column : Column ρ) (db : Db) (table : Option (List ρ)) :
    Except SqlError Db :=
  table.elim (.error .uniqueViolation) fun table => .ok (column.set table db)

def blockColumn : Column BlockRow :=
  ⟨Db.block, fun table db => { db with block := table }, fun _ _ => rfl, fun _ _ _ => rfl,
    fun _ => rfl, fun _ _ => rfl⟩

def blockTxColumn : Column BlockTxRow :=
  ⟨Db.blockTx, fun table db => { db with blockTx := table }, fun _ _ => rfl, fun _ _ _ => rfl,
    fun _ => rfl, fun _ _ => rfl⟩

def txColumn : Column TxRow :=
  ⟨Db.tx, fun table db => { db with tx := table }, fun _ _ => rfl, fun _ _ _ => rfl,
    fun _ => rfl, fun _ _ => rfl⟩

def outputColumn : Column OutputRow :=
  ⟨Db.output, fun table db => { db with output := table }, fun _ _ => rfl, fun _ _ _ => rfl,
    fun _ => rfl, fun _ _ => rfl⟩

def inputColumn : Column InputRow :=
  ⟨Db.input, fun table db => { db with input := table }, fun _ _ => rfl, fun _ _ _ => rfl,
    fun _ => rfl, fun _ _ => rfl⟩

section Query

variable {ρ : Type} {clause : OnConflict} {rows : List ρ} {statements : List (Insert ρ)}

theorem say_cons {statement : Insert ρ} (h : Say clause rows (statement :: statements)) :
    statement.onConflict = clause ∧ ∃ rest, rows = statement.values ++ rest ∧
      Say clause rest statements :=
  ⟨h.clauses statement (by simp), statements.flatMap (·.values),
    by simpa using h.values.symm, rfl, fun s hmem => h.clauses s (by simp [hmem])⟩

theorem insertInto_eq (clash : ρ → ρ → Bool) {statement : Insert ρ}
    (hclause : statement.onConflict ≠ .updateCurrentHeight) (table : List ρ) :
    insertInto clash statement table =
      (insertRows clash (statement.onConflict = .doNothing) table statement.values).elim
        (.error .uniqueViolation) .ok := by
  cases honConflict : statement.onConflict with
  | raise => simp [insertInto, honConflict]
  | doNothing => simp [insertInto, honConflict]
  | updateCurrentHeight => exact absurd honConflict hclause

/-- A query string without an update clause is one insert of all of its rows. -/
theorem batchExecute_insert (column : Column ρ) (clash : Mode → ρ → ρ → Bool)
    {execute : Insert ρ → Db → Except SqlError Db}
    (hexecute : ∀ statement db, statement.onConflict ≠ .updateCurrentHeight →
      execute statement db =
        (insertInto (clash db.schema) statement (column.rows db)).map fun table =>
          column.set table db)
    (hclause : clause ≠ .updateCurrentHeight) :
    ∀ {statements rows}, Say clause rows statements → ∀ db,
      batchExecute execute statements db = column.put db
        (insertRows (clash db.schema) (clause = .doNothing) (column.rows db) rows) := by
  intro statements
  induction statements with
  | nil =>
      intro rows h db
      have hnil : rows = [] := by simpa using h.values.symm
      simp [batchExecute, hnil, insertRows, Column.put, column.set_rows]
  | cons statement statements ih =>
      intro rows h db
      obtain ⟨hhead, rest, rfl, hrest⟩ := say_cons h
      rw [batchExecute, hexecute statement db (hhead ▸ hclause),
        insertInto_eq _ (hhead ▸ hclause), insertRows_append, hhead]
      cases hrows : insertRows (clash db.schema) (clause = .doNothing) (column.rows db)
          statement.values with
      | none => simp [Column.put, Except.map]
      | some table =>
          simp [Except.map, ih hrest, column.rows_set, column.schema_set, Column.put,
            column.set_set]

theorem insertTx_eq (statement : Insert TxRow) (db : Db)
    (hclause : statement.onConflict ≠ .updateCurrentHeight) : Db.insertTx statement db =
      (insertInto (txClash db.schema) statement db.tx).map fun table => txColumn.set table db := by
  cases honConflict : statement.onConflict with
  | updateCurrentHeight => exact absurd honConflict hclause
  | _ => simp [Db.insertTx, insertIntoTx, honConflict, txColumn]

/-- What a string in normal mode does with keys: it never fails, adds those that are not
stored, and changes nothing if there are none. -/
theorem batchExecute_skip {κ : Type} {key : ρ → κ} (column : Column ρ)
    (clash : Mode → ρ → ρ → Bool) {execute : Insert ρ → Db → Except SqlError Db}
    (hexecute : ∀ statement db, statement.onConflict ≠ .updateCurrentHeight →
      execute statement db =
        (insertInto (clash db.schema) statement (column.rows db)).map fun table =>
          column.set table db)
    (hclash : ∀ new old, clash .normal new old = true ↔ key new = key old)
    (hsay : Say .doNothing rows statements) {db : Db} (hschema : db.schema = .normal) :
    ∃ result, batchExecute execute statements db = .ok (column.set result db) ∧
      (∀ value, value ∈ result.map key ↔
        value ∈ (column.rows db).map key ∨ value ∈ rows.map key) ∧
      (rows.map key ⊆ (column.rows db).map key → result = column.rows db) := by
  have hsome : (insertRows (clash .normal) true (column.rows db) rows).isSome :=
    insertRows_skip_isSome (column.rows db) rows
  obtain ⟨result, hresult⟩ := Option.isSome_iff_exists.1 hsome
  refine ⟨result, ?_, fun _ => mem_keys_insertRows_skip hclash hresult, fun hstored => ?_⟩
  · rw [batchExecute_insert column clash hexecute (by simp) hsay db, hschema]
    simp [hresult, Column.put]
  · rw [insertRows_skip_all] at hresult
    · exact (Option.some.inj hresult).symm
    · intro row hrow
      obtain ⟨old, hold, hsame⟩ := List.mem_map.1 (hstored (List.mem_map_of_mem hrow))
      exact ⟨old, hold, (hclash row old).2 hsame.symm⟩

/-- Skipping what is stored already, in normal mode. -/
theorem exists_batchExecute_skip {κ : Type} {key : ρ → κ} (column : Column ρ)
    (clash : Mode → ρ → ρ → Bool) {execute : Insert ρ → Db → Except SqlError Db}
    (hexecute : ∀ statement db, statement.onConflict ≠ .updateCurrentHeight →
      execute statement db =
        (insertInto (clash db.schema) statement (column.rows db)).map fun table =>
          column.set table db)
    (hclash : ∀ new old, clash .normal new old = true ↔ key new = key old)
    (hsay : Say .doNothing rows statements) {db : Db} (hschema : db.schema = .normal)
    (hnodup : ((column.rows db).map key).Nodup) :
    ∃ result, batchExecute execute statements db = .ok (column.set result db) ∧
      column.rows db <+: result ∧ (result.map key).Nodup ∧ rows.map key ⊆ result.map key := by
  obtain ⟨result, hresult, hrest⟩ := exists_insertRows_skip hclash hnodup rows
  refine ⟨result, ?_, hrest⟩
  rw [batchExecute_insert column clash hexecute (by simp) hsay db, hschema]
  simp [hresult, Column.put]

theorem mergesBy_hashId : MergesBy TxRow.hashId (txClash .normal) updateCurrentHeight where
  same_iff := by simp [txClash]
  key_merge := fun _ _ => rfl

/-- All rows merged into the stored ones. -/
def upserted (rows : List TxRow) (db : Db) : Db :=
  { db with tx := upsertRows (txClash db.schema) updateCurrentHeight db.tx rows }

theorem upserted_append (left right : List TxRow) (db : Db) :
    upserted (left ++ right) db = upserted right (upserted left db) := by
  simp [upserted, upsertRows]

/-- The outcome of the upsert clause: the rows are merged in, or the statement cannot
be executed at all. -/
theorem batchExecute_upsert :
    ∀ {statements rows}, Say .updateCurrentHeight rows statements → ∀ db,
      (batchExecute Db.insertTx statements db = .ok (upserted rows db) ∧
        (rows ≠ [] → db.schema = .normal)) ∨
      ∃ e, batchExecute Db.insertTx statements db = .error e ∧ e ≠ .uniqueViolation := by
  intro statements
  induction statements with
  | nil =>
      intro rows h db
      have hnil : rows = [] := by simpa using h.values.symm
      exact .inl ⟨by simp [batchExecute, hnil, upserted, upsertRows], by simp [hnil]⟩
  | cons statement statements ih =>
      intro rows h db
      obtain ⟨hhead, rest, rfl, hrest⟩ := say_cons h
      by_cases hschema : db.schema = .normal
      · by_cases hnodup : (statement.values.map (·.hashId)).Nodup
        · have hexecute : Db.insertTx statement db = .ok (upserted statement.values db) := by
            simp [Db.insertTx, insertIntoTx, hhead, hschema, hnodup, Except.map, upserted]
          rw [batchExecute, hexecute, upserted_append]
          obtain ⟨hok, -⟩ | herror := ih hrest (upserted statement.values db)
          · exact .inl ⟨hok, fun _ => hschema⟩
          · exact .inr herror
        · refine .inr ⟨.affectedTwice, ?_, by simp⟩
          simp [batchExecute, Db.insertTx, insertIntoTx, hhead, hschema, hnodup, Except.map]
      · refine .inr ⟨.noArbiter, ?_, by simp⟩
        simp [batchExecute, Db.insertTx, insertIntoTx, hhead, hschema, Except.map]

/-- In the normal schema the upserts succeed where none names a row twice. -/
theorem upsert_ok_iff :
    ∀ {statements rows}, Say .updateCurrentHeight rows statements → ∀ db, db.schema = .normal →
      ((∃ after, batchExecute Db.insertTx statements db = .ok after) ↔
        ∀ statement ∈ statements, (statement.values.map (·.hashId)).Nodup) := by
  intro statements
  induction statements with
  | nil => exact fun _ db _ => ⟨by simp, fun _ => ⟨db, rfl⟩⟩
  | cons statement statements ih =>
      intro rows h db hschema
      obtain ⟨hhead, rest, rfl, hrest⟩ := say_cons h
      rw [List.forall_mem_cons]
      by_cases hnodup : (statement.values.map (·.hashId)).Nodup
      · have hexecute : Db.insertTx statement db = .ok (upserted statement.values db) := by
          simp [Db.insertTx, insertIntoTx, hhead, hschema, hnodup, Except.map, upserted]
        rw [batchExecute, hexecute, and_iff_right hnodup]
        exact ih hrest (upserted statement.values db) hschema
      · simp [batchExecute, Db.insertTx, insertIntoTx, hhead, hschema, hnodup, Except.map]

end Query

theorem batchExecute_event {clause : OnConflict} :
    ∀ {statements : List (Insert HashId)} {rows : List HashId}, Say clause rows statements →
      ∀ db, batchExecute Db.insertEvent statements db = .ok (db.insertEvents false rows) := by
  intro statements
  induction statements with
  | nil =>
      intro rows h db
      have hnil : rows = [] := by simpa using h.values.symm
      simp [batchExecute, hnil, Db.insertEvents, eventRows]
  | cons statement statements ih =>
      intro rows h db
      obtain ⟨-, rest, rfl, hrest⟩ := say_cons h
      rw [batchExecute, Db.insertEvent, insertEvents_append]
      exact ih hrest _

/-! ## The six of a batch -/

/-- A conflict skips the row in normal mode and fails the statement in a bulk mode. -/
def skips (mode : Mode) : Bool := !mode.isBulk

/-- What has happened to `tx` after its query string. -/
def TxExecuted (mode : Mode) (rows : List TxRow) (db after : Db) : Prop :=
  if mode.isBulk then insertRows (txClash db.schema) false db.tx rows = some after.tx
  else after.tx = upsertRows (txClash db.schema) updateCurrentHeight db.tx rows ∧
    (rows ≠ [] → db.schema = .normal)

/-- What has happened to the tables after all six. -/
structure Executed (mode : Mode) (rows : Rows) (db after : Db) : Prop where
  bulkMode : after.bulkMode = db.bulkMode
  schema : after.schema = db.schema
  eventIdSeq : after.eventIdSeq = db.eventIdSeq + rows.event.length
  event : after.event = db.event ++ eventRows false db.eventIdSeq rows.event
  block : insertRows blockClash (skips mode) db.block rows.block = some after.block
  blockTx : insertRows (blockTxClash db.schema) (skips mode) db.blockTx rows.blockTx =
    some after.blockTx
  tx : TxExecuted mode rows.tx db after
  output : insertRows (outputClash db.schema) (skips mode) db.output rows.output =
    some after.output
  input : insertRows (inputClash db.schema) (skips mode) db.input rows.input = some after.input

/-- No key of the database is violated by the rows. -/
structure Insertable (mode : Mode) (rows : Rows) (db : Db) : Prop where
  block : (insertRows blockClash (skips mode) db.block rows.block).isSome
  blockTx : (insertRows (blockTxClash db.schema) (skips mode) db.blockTx rows.blockTx).isSome
  tx : mode.isBulk → (insertRows (txClash db.schema) false db.tx rows.tx).isSome
  output : (insertRows (outputClash db.schema) (skips mode) db.output rows.output).isSome
  input : (insertRows (inputClash db.schema) (skips mode) db.input rows.input).isSome

theorem executeAll_cons (query : Db → Except SqlError Db)
    (queries : List (Db → Except SqlError Db)) (db : Db) :
    executeAll (query :: queries) db =
      match query db with
      | .error e => (db, some e)
      | .ok db => executeAll queries db := rfl

/-- Where the first queries fail, all of them do. -/
theorem executeAll_take (queries : List (Db → Except SqlError Db)) (count : ℕ) (db : Db)
    {e : SqlError} (herror : (executeAll (queries.take count) db).2 = some e) :
    (executeAll queries db).2 = some e := by
  induction queries generalizing count db with
  | nil => simpa using herror
  | cons query queries ih =>
      cases count with
      | zero => simp [executeAll] at herror
      | succ count =>
          rw [List.take_succ_cons, executeAll_cons] at herror
          rw [executeAll_cons]
          cases hquery : query db with
          | error e => simpa [hquery] using herror
          | ok db =>
              simp only [hquery] at herror
              exact ih count db herror

section Batch

variable {mode : Mode} {rows : Rows} {queries : Queries}

theorem autoClause_ne (mode : Mode) : autoClause mode ≠ .updateCurrentHeight := by
  cases mode <;> simp [autoClause, Mode.isBulk]

theorem autoClause_skips (mode : Mode) : decide (autoClause mode = .doNothing) = skips mode := by
  cases mode <;> rfl

theorem execute_block (h : Saying mode rows queries) (db : Db) :
    batchExecute Db.insertBlock queries.block db =
      blockColumn.put db (insertRows blockClash (skips mode) db.block rows.block) := by
  rw [← autoClause_skips]
  exact batchExecute_insert blockColumn (fun _ => blockClash) (fun _ _ _ => rfl)
    (autoClause_ne mode) h.block db

theorem execute_blockTx (h : Saying mode rows queries) (db : Db) :
    batchExecute Db.insertBlockTx queries.blockTx db = blockTxColumn.put db
      (insertRows (blockTxClash db.schema) (skips mode) db.blockTx rows.blockTx) := by
  rw [← autoClause_skips]
  exact batchExecute_insert blockTxColumn blockTxClash (fun _ _ _ => rfl) (autoClause_ne mode)
    h.blockTx db

theorem execute_output (h : Saying mode rows queries) (db : Db) :
    batchExecute Db.insertOutput queries.output db = outputColumn.put db
      (insertRows (outputClash db.schema) (skips mode) db.output rows.output) := by
  rw [← autoClause_skips]
  exact batchExecute_insert outputColumn outputClash (fun _ _ _ => rfl) (autoClause_ne mode)
    h.output db

theorem execute_input (h : Saying mode rows queries) (db : Db) :
    batchExecute Db.insertInput queries.input db = inputColumn.put db
      (insertRows (inputClash db.schema) (skips mode) db.input rows.input) := by
  rw [← autoClause_skips]
  exact batchExecute_insert inputColumn inputClash (fun _ _ _ => rfl) (autoClause_ne mode)
    h.input db

theorem execute_tx_bulk (h : Saying mode rows queries) (hbulk : mode.isBulk = true) (db : Db) :
    batchExecute Db.insertTx queries.tx db =
      txColumn.put db (insertRows (txClash db.schema) false db.tx rows.tx) := by
  have hsay : Say .raise rows.tx queries.tx := by
    simpa [txClause, hbulk] using h.tx
  exact batchExecute_insert txColumn txClash insertTx_eq (by simp) hsay db

theorem execute_tx_normal (h : Saying mode rows queries) (hnormal : mode.isBulk = false)
    (db : Db) :
    (batchExecute Db.insertTx queries.tx db = .ok (upserted rows.tx db) ∧
      (rows.tx ≠ [] → db.schema = .normal)) ∨
    ∃ e, batchExecute Db.insertTx queries.tx db = .error e ∧ e ≠ .uniqueViolation := by
  have hsay : Say .updateCurrentHeight rows.tx queries.tx := by
    simpa [txClause, hnormal] using h.tx
  exact batchExecute_upsert hsay db

theorem execute_tx (h : Saying mode rows queries) {db after : Db}
    (hok : batchExecute Db.insertTx queries.tx db = .ok after) :
    TxExecuted mode rows.tx db after ∧ ∃ table, after = { db with tx := table } := by
  cases hmode : mode.isBulk with
  | true =>
      rw [execute_tx_bulk h hmode] at hok
      cases hrows : insertRows (txClash db.schema) false db.tx rows.tx with
      | none => simp [hrows, Column.put] at hok
      | some table =>
          obtain rfl : txColumn.set table db = after := by simpa [hrows, Column.put] using hok
          exact ⟨by simpa [TxExecuted, hmode, txColumn] using hrows, table, rfl⟩
  | false =>
      obtain ⟨heq, hschema⟩ | ⟨e, heq, -⟩ := execute_tx_normal h hmode db
      · obtain rfl : upserted rows.tx db = after := by
          rw [heq] at hok
          exact Except.ok.inj hok
        exact ⟨by simp [TxExecuted, hmode, upserted]; simpa using hschema, _, rfl⟩
      · simp [heq] at hok

theorem put_ok {ρ : Type} {column : Column ρ} {db after : Db} {table : Option (List ρ)}
    (hput : column.put db table = .ok after) :
    ∃ rows, table = some rows ∧ column.set rows db = after := by
  cases table with
  | none => simp [Column.put] at hput
  | some rows => exact ⟨rows, rfl, by simpa [Column.put] using hput⟩

theorem executeAll_cons_none {query : Db → Except SqlError Db}
    {rest : List (Db → Except SqlError Db)} {db after : Db}
    (hall : executeAll (query :: rest) db = (after, none)) :
    ∃ middle, query db = .ok middle ∧ executeAll rest middle = (after, none) := by
  rw [executeAll_cons] at hall
  cases hquery : query db with
  | error e => simp [hquery] at hall
  | ok middle => exact ⟨middle, rfl, by simpa [hquery] using hall⟩

/-- The state after a batch whose queries have all succeeded. -/
theorem executed (h : Saying mode rows queries) {db after : Db}
    (hexecute : executeAll queries.toList db = (after, none)) : Executed mode rows db after := by
  obtain ⟨_, hevent, hexecute⟩ := executeAll_cons_none hexecute
  obtain ⟨_, hblock, hexecute⟩ := executeAll_cons_none hexecute
  obtain ⟨_, hblockTx, hexecute⟩ := executeAll_cons_none hexecute
  obtain ⟨_, htx, hexecute⟩ := executeAll_cons_none hexecute
  obtain ⟨_, houtput, hexecute⟩ := executeAll_cons_none hexecute
  obtain ⟨_, hinput, hexecute⟩ := executeAll_cons_none hexecute
  rw [batchExecute_event h.event, Except.ok.injEq] at hevent
  rw [execute_block h] at hblock
  rw [execute_blockTx h] at hblockTx
  rw [execute_output h] at houtput
  rw [execute_input h] at hinput
  obtain ⟨block, hblock', rfl⟩ := put_ok hblock
  obtain ⟨blockTx, hblockTx', rfl⟩ := put_ok hblockTx
  obtain ⟨htx', tx, rfl⟩ := execute_tx h htx
  obtain ⟨output, houtput', rfl⟩ := put_ok houtput
  obtain ⟨input, hinput', rfl⟩ := put_ok hinput
  obtain rfl : inputColumn.set input _ = after := by simpa [executeAll] using hexecute
  subst hevent
  exact ⟨rfl, rfl, rfl, rfl, hblock', hblockTx', htx', houtput', hinput'⟩

theorem executeAll_cons_ok {query : Db → Except SqlError Db}
    {rest : List (Db → Except SqlError Db)} {db middle : Db} (hquery : query db = .ok middle) :
    executeAll (query :: rest) db = executeAll rest middle := by
  rw [executeAll_cons, hquery]

theorem put_some {ρ : Type} (column : Column ρ) (db : Db) {table : Option (List ρ)}
    (htable : table.isSome) : ∃ rows, column.put db table = .ok (column.set rows db) := by
  obtain ⟨rows, rfl⟩ := Option.isSome_iff_exists.1 htable
  exact ⟨rows, rfl⟩

/-- Where the rows violate no key, no query reports a violation. -/
theorem executeAll_insertable (h : Saying mode rows queries) {db : Db}
    (hinsertable : Insertable mode rows db) :
    (executeAll queries.toList db).2 ≠ some .uniqueViolation := by
  have hrest : ∀ db' : Db, db'.schema = db.schema → db'.output = db.output →
      db'.input = db.input →
      (executeAll [batchExecute Db.insertOutput queries.output,
        batchExecute Db.insertInput queries.input] db').2 ≠ some .uniqueViolation := by
    intro db' hschema houtput hinput
    obtain ⟨output, hok⟩ := put_some outputColumn db' hinsertable.output
    rw [executeAll_cons_ok ((execute_output h db').trans (by rw [hschema, houtput, hok]))]
    obtain ⟨input, hok⟩ := put_some inputColumn (outputColumn.set output db') hinsertable.input
    rw [executeAll_cons_ok ((execute_input h _).trans (by
      rw [outputColumn.schema_set, hschema]
      change inputColumn.put _ (insertRows _ _ db'.input _) = _
      rw [hinput, hok]))]
    simp [executeAll]
  obtain ⟨block, hblock⟩ :=
    put_some blockColumn (db.insertEvents false rows.event) hinsertable.block
  obtain ⟨blockTx, hblockTx⟩ := put_some blockTxColumn
    (blockColumn.set block (db.insertEvents false rows.event)) hinsertable.blockTx
  rw [Queries.toList, executeAll_cons_ok (batchExecute_event h.event db),
    executeAll_cons_ok ((execute_block h _).trans hblock),
    executeAll_cons_ok ((execute_blockTx h _).trans hblockTx)]
  cases hmode : mode.isBulk with
  | true =>
      obtain ⟨tx, htx⟩ := put_some txColumn
        (blockTxColumn.set blockTx (blockColumn.set block (db.insertEvents false rows.event)))
        (hinsertable.tx hmode)
      rw [executeAll_cons_ok ((execute_tx_bulk h hmode _).trans htx)]
      exact hrest _ rfl rfl rfl
  | false =>
      obtain ⟨htx, -⟩ | ⟨e, htx, hne⟩ := execute_tx_normal h hmode
        (blockTxColumn.set blockTx (blockColumn.set block (db.insertEvents false rows.event)))
      · rw [executeAll_cons_ok htx]
        exact hrest _ rfl rfl rfl
      · rw [executeAll_cons, htx]
        simpa using hne

/-- Whether a batch in normal mode succeeds does not depend on what is stored. -/
theorem exists_executed (h : Saying .normal rows queries) {db after bare : Db}
    (hexecute : executeAll queries.toList db = (after, none)) (hschema : db.schema = .normal)
    (hbare : bare.schema = .normal) :
    ∃ fresh, executeAll queries.toList bare = (fresh, none) := by
  have htxSay : Say .updateCurrentHeight rows.tx queries.tx := by
    simpa [txClause, Mode.isBulk] using h.tx
  -- no statement names a transaction twice
  have hnodup : ∀ statement ∈ queries.tx, (statement.values.map (·.hashId)).Nodup := by
    obtain ⟨_, hevent, hexecute⟩ := executeAll_cons_none hexecute
    obtain ⟨_, hblock, hexecute⟩ := executeAll_cons_none hexecute
    obtain ⟨_, hblockTx, hexecute⟩ := executeAll_cons_none hexecute
    obtain ⟨stored, htx, -⟩ := executeAll_cons_none hexecute
    rw [batchExecute_event h.event, Except.ok.injEq] at hevent
    rw [execute_block h] at hblock
    rw [execute_blockTx h] at hblockTx
    obtain ⟨block, -, rfl⟩ := put_ok hblock
    obtain ⟨blockTx, -, rfl⟩ := put_ok hblockTx
    subst hevent
    exact (upsert_ok_iff htxSay (blockTxColumn.set blockTx
      (blockColumn.set block (db.insertEvents false rows.event))) hschema).1 ⟨stored, htx⟩
  have hblock : ∀ db, ∃ table, batchExecute Db.insertBlock queries.block db =
      .ok (blockColumn.set table db) := by
    intro db
    rw [execute_block h]
    exact put_some _ db (insertRows_skip_isSome _ _)
  have hblockTx : ∀ db, ∃ table, batchExecute Db.insertBlockTx queries.blockTx db =
      .ok (blockTxColumn.set table db) := by
    intro db
    rw [execute_blockTx h]
    exact put_some _ db (insertRows_skip_isSome _ _)
  have houtput : ∀ db, ∃ table, batchExecute Db.insertOutput queries.output db =
      .ok (outputColumn.set table db) := by
    intro db
    rw [execute_output h]
    exact put_some _ db (insertRows_skip_isSome _ _)
  have hinput : ∀ db, ∃ table, batchExecute Db.insertInput queries.input db =
      .ok (inputColumn.set table db) := by
    intro db
    rw [execute_input h]
    exact put_some _ db (insertRows_skip_isSome _ _)
  obtain ⟨block, hblock⟩ := hblock (bare.insertEvents false rows.event)
  obtain ⟨blockTx, hblockTx⟩ := hblockTx (blockColumn.set block (bare.insertEvents false rows.event))
  obtain ⟨withTx, htx⟩ := (upsert_ok_iff htxSay (blockTxColumn.set blockTx
    (blockColumn.set block (bare.insertEvents false rows.event))) hbare).2 hnodup
  obtain ⟨output, houtput⟩ := houtput withTx
  obtain ⟨input, hinput⟩ := hinput (outputColumn.set output withTx)
  refine ⟨inputColumn.set input (outputColumn.set output withTx), ?_⟩
  rw [Queries.toList, executeAll_cons_ok (batchExecute_event h.event bare),
    executeAll_cons_ok hblock, executeAll_cons_ok hblockTx, executeAll_cons_ok htx,
    executeAll_cons_ok houtput, executeAll_cons_ok hinput]
  rfl

end Batch

end BitcoinIndexer.Execution
