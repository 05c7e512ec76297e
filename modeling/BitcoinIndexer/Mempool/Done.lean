import BitcoinIndexer.Chain.UniqueKeys
import BitcoinIndexer.Mempool.Store

/-!
# The transactions that are done

A transaction is done when its latest attempt returned `Ok`.  That attempt has stored its
rows, unless the node did not give the transaction or a query for the outputs it spends
failed: `insert` returns `Ok` there without a statement.
-/

namespace BitcoinIndexer.MempoolDone

open BitcoinIndexer.Types
open BitcoinIndexer.Tables
open BitcoinIndexer.Formatter
open BitcoinIndexer.UtxoCache
open BitcoinIndexer.KeyedTable
open BitcoinIndexer.StoredRows
open BitcoinIndexer.Execution
open BitcoinIndexer.UniqueKeys (outputKey inputKey outputClash_normal inputClash_normal)
open BitcoinIndexer.Interleaving
open BitcoinIndexer.Mempool

/-! ## What is stored -/

/-- One row for a transaction, one for each of its outputs and one for each input. -/
structure Stored (txid : Txid) (tx : Transaction) (db : Db) : Prop where
  row : (db.tx.map (·.hashId)).count (hashToHashId txid) = 1
  outputs : ∀ idx < tx.output.length, (db.output.map outputKey).count (hashToHashId txid, idx) = 1
  inputs : ∀ input ∈ tx.input,
    (db.input.map inputKey).count (inputKey (InputFormatter.row txid input)) = 1

/-- An attempt has been answered, and what it was given is stored. -/
def Stores (attempt : Attempt) (db : Db) : Prop :=
  ∀ tx, attempt.data = some tx → attempt.refused = false → Stored attempt.txid tx db

/-- Every transaction that is done has been attempted, the last time successfully. -/
def Marked (p : Process) (db : Db) : Prop :=
  ∀ txid ∈ p.done, db.schema = .normal ∧
    ∃ attempt, p.lastAttempt txid = some attempt ∧ Stores attempt db

/-! ## What the other programs may do -/

/-- The keys of the schema are unique, and normal mode has all of them. -/
structure Sound (db : Db) : Prop where
  keys : keysUnique db.schema db
  mode : db.bulkMode = some false → db.schema = .normal

/-- Rows have been inserted; no key is gone. -/
structure Extends (db after : Db) : Prop where
  sound : Sound after
  schema : db.schema = .normal → after.schema = .normal
  tx : db.tx.map (·.hashId) ⊆ after.tx.map (·.hashId)
  output : db.output.map outputKey ⊆ after.output.map outputKey
  input : db.input.map inputKey ⊆ after.input.map inputKey

/-- The other programs insert, no coinbase is in the mempool, and the loop runs on only
where the store was opened. -/
def insertOnly : Discipline Act MempoolStore Halt World Event Call where
  event := fun event w =>
    match event with
    | .commit db => Extends w.db db
    | .tick _ => True
    | .node _ lookup => ∀ txid tx, lookup txid = some tx → tx.isCoinBase = false
  access := fun _ _ _ => True
  call := fun call c =>
    match call with
    | .start _ => True
    | .scan => c.prog = .pure ()

variable {db after : Db} {txid : Txid} {tx : Transaction} {p before : Process} {w : World}
variable {network : Network} {attempt : Attempt} {H : Db → Prop}

/-! ## Rows are never lost -/

theorem outputKey_rows : (outputRows network (txid, tx)).map outputKey =
    (List.range tx.output.length).map fun idx => (hashToHashId txid, idx) := by
  rw [outputRows, List.map_map, List.range_eq_range', ← List.zipIdx_map_snd 0 tx.output,
    List.map_map]
  rfl

/-- In normal mode a key that is stored is stored once. -/
theorem Sound.stored (h : Sound db) (network : Network) (hschema : db.schema = .normal)
    (hrow : hashToHashId txid ∈ db.tx.map (·.hashId))
    (houtputs : (outputRows network (txid, tx)).map outputKey ⊆ db.output.map outputKey)
    (hinputs : (tx.input.map (InputFormatter.row txid)).map inputKey ⊆ db.input.map inputKey) :
    Stored txid tx db := by
  have hkeys : keysUnique .normal db := hschema ▸ h.keys
  have houtput : (db.output.map outputKey).Nodup := hkeys.1 (by simp)
  have hinput : (db.input.map inputKey).Nodup := (hkeys.2 rfl).2.2
  constructor
  · exact List.count_eq_one_of_mem (hkeys.2 rfl).2.1 hrow
  · intro idx hidx
    apply List.count_eq_one_of_mem houtput
    apply houtputs
    rw [outputKey_rows]
    exact List.mem_map_of_mem (List.mem_range.2 hidx)
  · intro input hmem
    apply List.count_eq_one_of_mem hinput
    exact hinputs (List.mem_map_of_mem (List.mem_map_of_mem hmem))

theorem Stored.extends (h : Stored txid tx db) (hext : Extends db after)
    (hschema : db.schema = .normal) : Stored txid tx after := by
  have hmem : ∀ {κ : Type} [BEq κ] [LawfulBEq κ] {keys : List κ} {key : κ},
      keys.count key = 1 → key ∈ keys := fun hcount => List.count_pos_iff.1 (by omega)
  apply hext.sound.stored .bitcoin (hext.schema hschema) (hext.tx (hmem h.row))
  · rw [outputKey_rows]
    intro key hkey
    obtain ⟨idx, hidx, rfl⟩ := List.mem_map.1 hkey
    exact hext.output (hmem (h.outputs idx (List.mem_range.1 hidx)))
  · intro key hkey
    obtain ⟨row, hrow, rfl⟩ := List.mem_map.1 hkey
    obtain ⟨input, hinput, rfl⟩ := List.mem_map.1 hrow
    exact hext.input (hmem (h.inputs input hinput))

theorem Marked.extends (h : Marked p db) (hext : Extends db after) : Marked p after := by
  intro txid hdone
  obtain ⟨hschema, attempt, hlast, hstores⟩ := h txid hdone
  exact ⟨hext.schema hschema, attempt, hlast, fun tx hdata hrefused =>
    (hstores tx hdata hrefused).extends hext hschema⟩

/-- An attempt at something that is not done changes nothing for what is. -/
theorem Marked.attempting (h : Marked p db) (hnew : attempt.txid ∉ p.done) :
    Marked (p.attempting attempt) db := by
  intro txid hdone
  obtain ⟨hschema, last, hlast, hstores⟩ := h txid hdone
  refine ⟨hschema, last, ?_, hstores⟩
  have hne : attempt.txid ≠ txid := fun heq => hnew (heq ▸ hdone)
  rw [Process.lastAttempt, Process.attempting, List.find?_cons_of_neg (by simpa using hne)]
  exact hlast

/-- The latest attempt has succeeded. -/
theorem Marked.done (h : Marked p db) (hschema : db.schema = .normal)
    (hnew : attempt.txid ∉ p.done) (hstores : Stores attempt db) :
    Marked { p.attempting attempt with done := insert attempt.txid p.done } db := by
  intro txid hdone
  obtain rfl | hold := Finset.mem_insert.1 hdone
  · refine ⟨hschema, attempt, ?_, hstores⟩
    rw [Process.lastAttempt, Process.attempting, List.find?_cons_of_pos (by simp)]
  · exact h.attempting hnew txid hold

/-! ## The states of a run -/

/-- The database is in order, and the mempool has no coinbase. -/
structure Serving (w : World) : Prop where
  sound : Sound w.db
  lookup : ∀ txid tx, w.lookup txid = some tx → tx.isCoinBase = false

/-- Whatever the process is at. -/
structure Kept (w : World) : Prop extends Serving w where
  marked : Marked w.process w.db

/-- The process is not in an attempt, and its memory is `p`. -/
structure Held (p : Process) (w : World) : Prop extends Serving w where
  schema : w.db.schema = .normal
  marked : Marked p w.db
  process : w.process = p

/-- The process is in an attempt, and `H` says what that has stored already. -/
structure Attempting (H : Db → Prop) (before : Process) (attempt : Attempt) (w : World) : Prop
    extends Serving w where
  schema : w.db.schema = .normal
  marked : Marked before w.db
  process : w.process = before.attempting attempt
  holds : H w.db

/-- An assertion that inserting cannot break. -/
def Upward (H : Db → Prop) : Prop :=
  ∀ db after, db.schema = .normal → Extends db after → H db → H after

theorem Held.kept (h : Held p w) : Kept w := ⟨h.toServing, h.process ▸ h.marked⟩

theorem Attempting.kept (h : Attempting H before attempt w) (hnew : attempt.txid ∉ before.done) :
    Kept w :=
  ⟨h.toServing, h.process ▸ h.marked.attempting hnew⟩

theorem Attempting.mono {H' : Db → Prop} (h : Attempting H before attempt w)
    (himp : ∀ db, H db → H' db) : Attempting H' before attempt w :=
  { h with holds := himp _ h.holds }

theorem stable_serving : insertOnly.Stable system Serving := by
  intro event w hevent h
  cases event with
  | commit db => exact ⟨hevent.sound, h.lookup⟩
  | tick now => exact ⟨h.sound, h.lookup⟩
  | node mempool lookup => exact ⟨h.sound, hevent⟩

theorem process_step (event : Event) (w : World) : (w.step event).process = w.process := by
  cases event <;> rfl

/-- What the other programs make of the database. -/
theorem upward_step {event : Event} (hH : Upward H) (hevent : insertOnly.event event w)
    (hschema : w.db.schema = .normal) (h : H w.db) : H (w.step event).db := by
  cases event with
  | commit db => exact hH w.db db hschema hevent h
  | _ => exact h

theorem upward_marked (p : Process) : Upward (Marked p) :=
  fun _ _ _ hext h => h.extends hext

theorem upward_stores : Upward (Stores attempt) :=
  fun _ _ hschema hext h tx hdata hrefused => (h tx hdata hrefused).extends hext hschema

theorem upward_normal : Upward fun db => db.schema = .normal :=
  fun _ _ hschema hext _ => hext.schema hschema

theorem stable_kept : insertOnly.Stable system Kept := by
  intro event w hevent h
  refine ⟨stable_serving event w hevent h.toServing, ?_⟩
  change Marked (w.step event).process (w.step event).db
  rw [process_step]
  cases event with
  | commit db => exact h.marked.extends hevent
  | _ => exact h.marked

theorem stable_held (p : Process) : insertOnly.Stable system (Held p) := by
  intro event w hevent h
  exact
    { toServing := stable_serving event w hevent h.toServing
      schema := upward_step upward_normal hevent h.schema h.schema
      marked := upward_step (upward_marked p) hevent h.schema h.marked
      process := (process_step event w).trans h.process }

theorem stable_attempting (hH : Upward H) :
    insertOnly.Stable system (Attempting H before attempt) := by
  intro event w hevent h
  exact
    { toServing := stable_serving event w hevent h.toServing
      schema := upward_step upward_normal hevent h.schema h.schema
      marked := upward_step (upward_marked before) hevent h.schema h.marked
      process := (process_step event w).trans h.process
      holds := upward_step hH hevent h.schema h.holds }

/-! ## Statements -/

section Statements

variable (h : Sound db) (hschema : db.schema = .normal)
include h hschema

theorem Sound.insertTx {rows : List TxRow} {statements : List (Insert TxRow)}
    (hsay : Say .doNothing rows statements) :
    ∃ after, batchExecute Db.insertTx statements db = .ok after ∧ Extends db after ∧
      rows.map (·.hashId) ⊆ after.tx.map (·.hashId) := by
  have hkeys : keysUnique .normal db := hschema ▸ h.keys
  obtain ⟨result, hok, hinitial, hnodup, hrows⟩ := exists_batchExecute_skip txColumn txClash
    insertTx_eq mergesBy_hashId.same_iff hsay hschema (hkeys.2 rfl).2.1
  refine ⟨_, hok, ⟨⟨?_, fun _ => hschema⟩, fun _ => hschema, ?_, ?_, ?_⟩, hrows⟩
  · change keysUnique db.schema _
    rw [hschema]
    exact ⟨hkeys.1, fun _ => ⟨(hkeys.2 rfl).1, hnodup, (hkeys.2 rfl).2.2⟩⟩
  · exact (hinitial.map _).subset
  · exact List.Subset.refl _
  · exact List.Subset.refl _

theorem Sound.insertOutput {rows : List OutputRow} {statements : List (Insert OutputRow)}
    (hsay : Say .doNothing rows statements) :
    ∃ after, batchExecute Db.insertOutput statements db = .ok after ∧ Extends db after ∧
      rows.map outputKey ⊆ after.output.map outputKey := by
  have hkeys : keysUnique .normal db := hschema ▸ h.keys
  obtain ⟨result, hok, hinitial, hnodup, hrows⟩ := exists_batchExecute_skip outputColumn
    outputClash (fun _ _ _ => rfl) outputClash_normal hsay hschema (hkeys.1 (by simp))
  refine ⟨_, hok, ⟨⟨?_, fun _ => hschema⟩, fun _ => hschema, ?_, ?_, ?_⟩, hrows⟩
  · change keysUnique db.schema _
    rw [hschema]
    exact ⟨fun _ => hnodup, hkeys.2⟩
  · exact List.Subset.refl _
  · exact (hinitial.map _).subset
  · exact List.Subset.refl _

theorem Sound.insertInput {rows : List InputRow} {statements : List (Insert InputRow)}
    (hsay : Say .doNothing rows statements) :
    ∃ after, batchExecute Db.insertInput statements db = .ok after ∧ Extends db after ∧
      rows.map inputKey ⊆ after.input.map inputKey := by
  have hkeys : keysUnique .normal db := hschema ▸ h.keys
  obtain ⟨result, hok, hinitial, hnodup, hrows⟩ := exists_batchExecute_skip inputColumn
    inputClash (fun _ _ _ => rfl) inputClash_normal hsay hschema (hkeys.2 rfl).2.2
  refine ⟨_, hok, ⟨⟨?_, fun _ => hschema⟩, fun _ => hschema, ?_, ?_, ?_⟩, hrows⟩
  · change keysUnique db.schema _
    rw [hschema]
    exact ⟨hkeys.1, fun _ => ⟨(hkeys.2 rfl).1, (hkeys.2 rfl).2.1, hnodup⟩⟩
  · exact List.Subset.refl _
  · exact List.Subset.refl _
  · exact (hinitial.map _).subset

end Statements

theorem say_stamped (now : ℕ) {clause : OnConflict} {rows : List TxRow}
    {statements : List (Insert TxRow)} (h : Say clause rows statements) :
    Say clause (rows.map fun row => { row with mempoolTs := some now })
      (stamped now statements) where
  values := by rw [← h.values, stamped, List.flatMap_map, List.map_flatMap]
  clauses := by
    intro statement hmem
    obtain ⟨old, hold, rfl⟩ := List.mem_map.1 hmem
    exact h.clauses old hold

/-- The three query strings of a transaction. -/
theorem say_mempool {utxoMap : UtxoDetailsMap} {f : TxFormatter}
    (hfmt : (TxFormatter.newForInMempool network utxoMap).fmt none tx txid = .ok f) :
    Say .doNothing [TxFormatter.row none tx txid (feeOf utxoMap tx)] f.tx.drop ∧
      Say .doNothing (outputRows network (txid, tx)) f.outputFmt.drop ∧
      Say .doNothing (inputRows (txid, tx)) f.inputFmt.drop := by
  have hnew : ∀ ρ : Type, Given .doNothing [] (.newOnConflictDoNothing : MultiValueSqlFormatter ρ) :=
    fun ρ => ⟨rfl, rfl, fun _ hmem => absurd hmem (by simp [MultiValueSqlFormatter.newOnConflictDoNothing])⟩
  have hauto : ∀ ρ : Type,
      (.newOnConflictDoNothingAuto .normal : MultiValueSqlFormatter ρ) = .newOnConflictDoNothing :=
    fun ρ => rfl
  rw [TxFormatter.fmt] at hfmt
  cases hfee : TxFormatter.fee utxoMap tx with
  | error panic => simp [TxFormatter.newForInMempool, hfee] at hfmt
  | ok fee =>
      simp only [TxFormatter.newForInMempool, hfee, hauto, Except.ok.injEq] at hfmt
      subst hfmt
      refine ⟨?_, ?_, ?_⟩
      · simpa [feeOf_of_fee hfee] using ((hnew TxRow).fmtWith _).drop
      · exact ((hnew OutputRow).foldl (fun output : TxOut × ℕ =>
          OutputFormatter.row network txid output.1 output.2) tx.output.zipIdx).drop
      · cases hcoinbase : tx.isCoinBase with
        | true => simpa [inputRows, hcoinbase] using (hnew InputRow).drop
        | false =>
            simpa [inputRows, hcoinbase] using
              ((hnew InputRow).foldl (InputFormatter.row txid) tx.input).drop

/-! ## An attempt -/

abbrev SafeIn {α : Type} (Q : α → MempoolStore → World → Prop) (prog : MempoolM α)
    (store : MempoolStore) (w : World) : Prop :=
  Safe system insertOnly Kept (fun _ _ => Kept) Q prog store w

/-- How an attempt may end: what returns `Ok` after answers only has stored everything. -/
def Attempted (txid : Txid) (before : Process) (result : Except InsertError Unit) (w : World) :
    Prop :=
  ∃ attempt, attempt.txid = txid ∧
    Attempting (fun db => result = .ok () → Stores attempt db) before attempt w

/-- What a statement is to do in every state. -/
def Achieves (statement : ℕ → Db → Except SqlError Db) (H H' : Db → Prop) : Prop :=
  ∀ now db, Sound db → db.schema = .normal → H db →
    ∃ after, statement now db = .ok after ∧ Extends db after ∧ H' after

theorem Achieves.and {statement : ℕ → Db → Except SqlError Db} {H H' : Db → Prop}
    (h : Achieves statement (fun _ => True) H') (hH : Upward H) :
    Achieves statement H fun db => H db ∧ H' db := by
  intro now db hsound hschema hholds
  obtain ⟨after, hok, hext, hafter⟩ := h now db hsound hschema trivial
  exact ⟨after, hok, hext, hH db after hschema hext hholds, hafter⟩

theorem Attempting.refused (h : Attempting H before attempt w) {e : InsertError} :
    Attempted attempt.txid before (.error e) w :=
  ⟨attempt, rfl, h.mono fun _ _ => by simp⟩

theorem Attempting.refuse (h : Attempting H before attempt w) :
    Attempting H before { attempt with refused := true } (w.remember (·.refuse)) where
  sound := h.sound
  lookup := h.lookup
  schema := h.schema
  marked := h.marked
  process := by
    rw [World.remember, h.process]
    rfl
  holds := h.holds

section Attempt

variable {store : MempoolStore} (hnew : attempt.txid ∉ before.done)
include hnew

/-- One statement, and the rest of them. -/
theorem safe_executeQueries_cons {statement : ℕ → Db → Except SqlError Db}
    {statements : List (ℕ → Db → Except SqlError Db)} {H' : Db → Prop} (hH : Upward H)
    (hstatement : Achieves statement H H')
    (hrest : ∀ w, Attempting H' before attempt w →
      SafeIn (fun result _ => Attempted attempt.txid before result)
        (executeQueries statements) store w)
    (h : Attempting H before attempt w) :
    SafeIn (fun result _ => Attempted attempt.txid before result)
      (executeQueries (statement :: statements)) store w := by
  apply Safe.act (stable_attempting hH) (fun _ h => h.kept hnew) _ h
  intro w h fails _
  cases fails with
  | true => exact h.refused
  | false =>
      obtain ⟨after, hok, hext, hafter⟩ := hstatement w.clock w.db h.sound h.schema h.holds
      simp only [system, exec, execStatement, hok]
      exact hrest _
        { sound := hext.sound
          lookup := h.lookup
          schema := hext.schema h.schema
          marked := h.marked.extends hext
          process := h.process
          holds := hafter }

/-- The three statements leave the transaction stored. -/
theorem safe_insertTxData {tx : Transaction} (hcoinbase : tx.isCoinBase = false)
    (hdata : attempt.data = some tx) (utxoMap : UtxoDetailsMap)
    (h : Attempting (fun _ => True) before attempt w) :
    SafeIn (fun result _ => Attempted attempt.txid before result)
      (insertTxData attempt.txid tx utxoMap) store w := by
  rw [insertTxData]
  simp only [Prog.bind_eq, Prog.read_bind, safe_loc]
  cases hfmt : (TxFormatter.newForInMempool store.network utxoMap).fmt none tx attempt.txid with
  | error panic => exact h.kept hnew
  | ok f =>
      obtain ⟨htx, houtput, hinput⟩ := say_mempool hfmt
      rw [inputRows, hcoinbase] at hinput
      let row : Db → Prop := fun db => hashToHashId attempt.txid ∈ db.tx.map (·.hashId)
      let outputs : Db → Prop := fun db =>
        (outputRows store.network (attempt.txid, tx)).map outputKey ⊆ db.output.map outputKey
      let inputs : Db → Prop := fun db =>
        (tx.input.map (InputFormatter.row attempt.txid)).map inputKey ⊆ db.input.map inputKey
      have hrow : Upward row := fun _ _ _ hext h => hext.tx h
      have houtputs : Upward outputs := fun _ _ _ hext h => List.Subset.trans h hext.output
      have hboth : Upward fun db => row db ∧ outputs db :=
        fun db after hschema hext h => ⟨hrow db after hschema hext h.1, houtputs db after hschema hext h.2⟩
      have hfirst : Achieves (fun now => batchExecute Db.insertTx (stamped now f.tx.drop))
          (fun _ => True) row := by
        intro now db hsound hschema _
        obtain ⟨after, hok, hext, hrows⟩ := hsound.insertTx hschema (say_stamped now htx)
        exact ⟨after, hok, hext, hrows (by simp [TxFormatter.row])⟩
      have hsecond : Achieves (fun _ => batchExecute Db.insertOutput f.outputFmt.drop)
          (fun _ => True) outputs :=
        fun _ _ hsound hschema _ => hsound.insertOutput hschema houtput
      have hthird : Achieves (fun _ => batchExecute Db.insertInput f.inputFmt.drop)
          (fun _ => True) inputs :=
        fun _ _ hsound hschema _ => hsound.insertInput hschema hinput
      apply safe_executeQueries_cons hnew (fun _ _ _ _ h => h) hfirst _ h
      intro w h
      apply safe_executeQueries_cons hnew hrow (hsecond.and hrow) _ h
      intro w h
      apply safe_executeQueries_cons hnew hboth (hthird.and hboth) _ h
      intro w h
      refine ⟨attempt, rfl, { h with holds := fun _ tx' hdata' _ => ?_ }⟩
      obtain rfl : tx = tx' := Option.some.inj (hdata.symm.trans hdata')
      exact h.sound.stored store.network h.schema h.holds.1.1 h.holds.1.2 h.holds.2

/-- A query that fails ends the attempt as one that was refused. -/
theorem safe_fetchOutputs (queries : List (List HashIdOutPoint)) (out : UtxoDetailsMap)
    (h : Attempting (fun _ => True) before attempt w) :
    SafeIn (fun result _ w =>
        match result with
        | .ok _ => Attempting (fun _ => True) before attempt w
        | .error _ => Attempting (fun _ => True) before { attempt with refused := true } w)
      (fetchOutputs queries out) store w := by
  induction queries generalizing out w with
  | nil => exact h
  | cons chunk queries ih =>
      apply Safe.act (stable_attempting fun _ _ _ _ h => h) (fun _ h => h.kept hnew) _ h
      intro w h fails _
      cases fails with
      | true =>
          exact h.refuse
      | false => exact ih _ h

theorem safe_insert (hdata : ∀ tx, attempt.data = some tx → tx.isCoinBase = false)
    (h : Attempting (fun _ => True) before attempt w) :
    SafeIn (fun result _ => Attempted attempt.txid before result)
      (Mempool.insert attempt.txid attempt.data) store w := by
  cases hattempt : attempt.data with
  | none =>
      exact ⟨attempt, rfl, h.mono fun _ _ _ tx htx => by simp [hattempt] at htx⟩
  | some tx =>
      refine Safe.bind ?_ (safe_fetchOutputs hnew (fmtFetchOutputsSql (hashIdOutPoints tx)) ∅ h)
      intro result store w hresult
      cases result with
      | error e =>
          exact ⟨{ attempt with refused := true }, rfl, hresult.mono fun _ _ _ _ _ hrefused => by
            cases hrefused⟩
      | ok utxoMap =>
          by_cases hlen : utxoMap.keys.length ≠ tx.input.length
          · simpa only [if_pos hlen, Prog.pure_eq, safe_pure] using hresult.refused
          · simp only [if_neg hlen]
            exact safe_insertTxData hnew (hdata tx hattempt) hattempt utxoMap hresult

end Attempt

/-! ## The loop -/

def Known (p : Process) (txid : Txid) : Prop := txid ∈ p.done ∨ txid ∈ p.asked

/-- What a part of the loop does for `ids`. -/
structure Visited (ids : List Txid) (p after : Process) : Prop where
  listed : after.listed = p.listed
  known : ∀ txid, txid ∈ ids ∨ Known p txid → Known after txid

theorem Visited.append {left right : List Txid} {middle last : Process}
    (h : Visited left p middle) (hrest : Visited right middle last) :
    Visited (left ++ right) p last where
  listed := hrest.listed.trans h.listed
  known := by
    intro txid hid
    apply hrest.known
    rw [List.mem_append] at hid
    have := h.known txid
    tauto

theorem visited_attempting : Visited [attempt.txid] p (p.attempting attempt) where
  listed := rfl
  known := by
    intro txid hid
    rw [List.mem_singleton] at hid
    rw [Known, Process.attempting, List.mem_cons]
    rw [Known] at hid
    tauto

theorem visited_done : Visited [attempt.txid] p
    { p.attempting attempt with done := insert attempt.txid p.done } where
  listed := rfl
  known := by
    intro txid hid
    rw [List.mem_singleton] at hid
    rw [Known, Process.attempting, List.mem_cons]
    rw [Known] at hid
    simp only [Finset.mem_insert]
    tauto

/-- `done.insert` after an attempt that has stored everything. -/
theorem Attempting.done (h : Attempting (Stores attempt) before attempt w)
    (hnew : attempt.txid ∉ before.done) :
    Held { before.attempting attempt with done := insert attempt.txid before.done }
      (w.remember fun p => { p with done := insert attempt.txid p.done }) where
  sound := h.sound
  lookup := h.lookup
  schema := h.schema
  marked := h.marked.done h.schema hnew h.holds
  process := by
    rw [World.remember, h.process]
    rfl

theorem Attempting.held (h : Attempting H before attempt w) (hnew : attempt.txid ∉ before.done) :
    Held (before.attempting attempt) w :=
  { h with marked := h.marked.attempting hnew }

theorem system_exec {β : Type} (access : Act β) (fails : Bool) (w : World) :
    system.exec access fails w = exec access fails w := rfl

/-- What `get_by_id` gives is never a coinbase. -/
theorem exec_getById (h : Serving w) (txid : Txid) (fails : Bool) :
    ∃ data, exec (.getById txid) fails w =
        .done data (w.remember (·.attempting ⟨txid, data, false⟩)) ∧
      ∀ tx, data = some tx → tx.isCoinBase = false := by
  cases fails with
  | true => exact ⟨none, rfl, by simp⟩
  | false => exact ⟨w.lookup txid, rfl, h.lookup txid⟩

theorem safe_visit {store : MempoolStore} (txid : Txid) (h : Held p w) :
    SafeIn (fun _ _ w => ∃ after, Held after w ∧ Visited [txid] p after) (visit txid) store w := by
  apply Safe.act (stable_held p) (fun _ h => h.kept) _ h
  intro w h _ _
  simp only [system, exec, h.process]
  by_cases hdone : txid ∈ p.done
  · simp only [hdone, decide_true]
    exact ⟨p, h, rfl, fun _ hid => hid.elim (fun hmem => .inl (List.mem_singleton.1 hmem ▸ hdone)) id⟩
  simp only [hdone, decide_false]
  apply Safe.act (stable_held p) (fun _ h => h.kept) _ h
  intro w h fails _
  obtain ⟨data, hexec, hdata⟩ := exec_getById h.toServing txid fails
  rw [system_exec, hexec]
  change SafeIn _ (Prog.bind (Mempool.insert txid data) _) store _
  have hattempting : Attempting (fun _ => True) p ⟨txid, data, false⟩
      (w.remember (·.attempting ⟨txid, data, false⟩)) :=
    { sound := h.sound
      lookup := h.lookup
      schema := h.schema
      marked := h.marked
      process := by rw [World.remember, h.process]
      holds := trivial }
  refine Safe.bind ?_ (safe_insert hdone hdata hattempting)
  intro result store w hresult
  obtain ⟨attempt, rfl, hattempted⟩ := hresult
  cases result with
  | error e => exact ⟨p.attempting attempt, hattempted.held hdone, visited_attempting⟩
  | ok value =>
      have hstores : Attempting (Stores attempt) p attempt w := hattempted.mono fun _ h => h rfl
      apply Safe.act (stable_attempting upward_stores) (fun _ h => h.kept hdone) _ hstores
      intro w h _ _
      exact ⟨_, h.done hdone, visited_done⟩

theorem safe_visitAll {store : MempoolStore} (txIds : List Txid) :
    ∀ {p w}, Held p w →
      SafeIn (fun _ _ w => ∃ after, Held after w ∧ Visited txIds p after) (visitAll txIds) store
        w := by
  induction txIds generalizing store with
  | nil => exact fun {p _} h => ⟨p, h, rfl, by simp⟩
  | cons txid txIds ih =>
      intro p w h
      refine Safe.bind ?_ (safe_visit txid h)
      intro _ store w hvisit
      obtain ⟨middle, hmiddle, hvisited⟩ := hvisit
      refine Safe.mono ?_ (ih hmiddle)
      intro _ store w hall
      obtain ⟨after, hafter, hrest⟩ := hall
      exact ⟨after, hafter, hvisited.append hrest⟩

/-- Between two turns: what was listed last is done or has been asked for. -/
def Rested (w : World) : Prop :=
  ∃ p, Held p w ∧ ∀ txid ∈ p.listed, Known p txid

theorem stable_rested : insertOnly.Stable system Rested := by
  intro event w hevent h
  obtain ⟨p, hheld, hlisted⟩ := h
  exact ⟨p, stable_held p event w hevent hheld, hlisted⟩

theorem Rested.kept (h : Rested w) : Kept w := by
  obtain ⟨p, hheld, -⟩ := h
  exact hheld.kept

/-- From the listing to the end of a turn. -/
theorem safe_listing {store : MempoolStore} (h : Held p w) :
    SafeIn (fun _ _ => Rested) ((Prog.perform .getRawMempool).bind visitAll) store w := by
  apply Safe.act (stable_held p) (fun _ h => h.kept) _ h
  intro w h fails _
  cases fails with
  | true => exact h.kept
  | false =>
      have hlisted : Held (p.list w.mempool) (w.remember (·.list w.mempool)) :=
        { sound := h.sound
          lookup := h.lookup
          schema := h.schema
          marked := h.marked
          process := by rw [World.remember, h.process] }
      refine Safe.mono ?_ (safe_visitAll w.mempool hlisted)
      intro _ store w' hall
      obtain ⟨after, hafter, hvisited⟩ := hall
      refine ⟨after, hafter, fun txid hmem => hvisited.known txid (.inl ?_)⟩
      rwa [hvisited.listed] at hmem

theorem safe_scan {store : MempoolStore} (h : Held p w) :
    SafeIn (fun _ _ => Rested) scan store w := by
  rw [scan]
  simp only [Prog.bind_eq, Prog.perform_bind]
  apply Safe.act (stable_held p) (fun _ h => h.kept) _ h
  intro w h _ _
  simp only [system, exec]
  split
  · apply Safe.act (stable_held p) (fun _ h => h.kept) _ h
    intro w h _ _
    have hcleared : Held { p with done := ∅ } (w.remember fun p => { p with done := ∅ }) :=
      { sound := h.sound
        lookup := h.lookup
        schema := h.schema
        marked := by simp [Marked]
        process := by rw [World.remember, h.process] }
    exact safe_listing hcleared
  · exact safe_listing h

/-! ## Opening the store -/

/-- A process that has done nothing yet. -/
structure Opening (w : World) : Prop extends Serving w where
  process : w.process = .start

theorem marked_start (db : Db) : Marked .start db := by
  simp [Marked, Process.start]

theorem Opening.kept (h : Opening w) : Kept w := ⟨h.toServing, h.process ▸ marked_start w.db⟩

theorem stable_opening : insertOnly.Stable system Opening :=
  fun event w hevent h =>
    ⟨stable_serving event w hevent h.toServing, (process_step event w).trans h.process⟩

theorem Opening.refuse (h : Opening w) : Opening (w.remember (·.refuse)) where
  sound := h.sound
  lookup := h.lookup
  process := by
    rw [World.remember, h.process]
    rfl

theorem indexerStateMode_bulk {mode : Mode} (h : Store.indexerStateMode db = some mode)
    (hmode : mode.isBulk = false) : db.bulkMode = some false := by
  cases hbulk : db.bulkMode with
  | none => simp [Store.indexerStateMode, hbulk] at h
  | some bulk =>
      cases bulk with
      | false => rfl
      | true =>
          obtain rfl : _ = mode := by simpa [Store.indexerStateMode, hbulk] using h
          split at hmode <;> cases hmode

/-- The mode that is read is not normal, or the keys are those of normal mode. -/
theorem safe_readIndexerState {store : MempoolStore} (h : Opening w) :
    SafeIn (fun mode _ w => Opening w ∧ (mode.isBulk = false → w.db.schema = .normal))
      readIndexerState store w := by
  simp only [readIndexerState, Prog.bind_eq, Prog.perform_bind]
  apply Safe.act stable_opening (fun _ h => h.kept) _ h
  intro w h fails _
  cases fails with
  | true => exact h.refuse.kept
  | false =>
      simp only [system, exec, orHalt, Prog.pure_eq, Prog.pure_bind]
      cases hmode : Store.indexerStateMode w.db with
      | some mode => exact ⟨h, fun hbulk => h.sound.mode (indexerStateMode_bulk hmode hbulk)⟩
      | none =>
          apply Safe.act stable_opening (fun _ h => h.kept) _ h
          intro w h fails _
          cases fails with
          | true => exact h.kept
          | false =>
              have hwritten : Opening { w with db := { w.db with bulkMode := some true } } :=
                ⟨⟨⟨h.sound.keys, by simp⟩, h.lookup⟩, h.process⟩
              exact ⟨hwritten, fun hbulk => by cases hbulk⟩

theorem safe_new {store : MempoolStore} (h : Opening w) :
    SafeIn (fun _ _ => Rested) (new network) store w := by
  simp only [new, Prog.bind_eq, Prog.perform_bind]
  apply Safe.act stable_opening (fun _ h => h.kept) _ h
  intro w h fails _
  cases fails with
  | true => exact h.kept
  | false =>
      simp only [system, exec, execStatement, orHalt, Prog.pure_eq, Prog.pure_bind]
      refine Safe.bind ?_ (safe_readIndexerState h)
      intro mode store w hread
      obtain ⟨hopening, hschema⟩ := hread
      split
      · exact hopening.kept
      · next hbulk =>
          exact ⟨.start,
            { toServing := hopening.toServing
              schema := hschema (by simpa using hbulk)
              marked := marked_start w.db
              process := hopening.process }, by simp [Process.start]⟩

/-! ## Every run -/

theorem kept_initial : Kept initial.shared where
  sound := ⟨by decide, by decide⟩
  lookup := fun _ _ h => by cases h
  marked := marked_start _

theorem kept_of_safe {c : Config Act MempoolStore Halt World}
    (h : SafeConfig system insertOnly Kept (fun _ _ => Kept) (fun _ => Rested) c) :
    Kept c.shared := by
  have hrested : ∀ (_ : MempoolStore) (w : World), Rested w → Kept w := fun _ _ => Rested.kept
  have hhalted : ∀ (_ : Halt) (_ : MempoolStore) (w : World), Kept w → Kept w := fun _ _ _ => id
  exact h.always hrested hhalted

theorem safe_run (labels : List (Label Event Call))
    (hfollows : insertOnly.follows system labels initial) :
    SafeConfig system insertOnly Kept (fun _ _ => Kept) (fun _ => Rested)
      (system.run labels initial) := by
  apply SafeConfig.run (fun _ => stable_rested) (fun _ _ => stable_kept) labels initial _ hfollows
  · exact kept_initial
  · intro call c _ hcall hsafe
    cases call with
    | start network =>
        have hkept := kept_of_safe hsafe
        exact safe_new ⟨⟨hkept.sound, hkept.lookup⟩, rfl⟩
    | scan =>
        rw [SafeConfig, show c.prog = .pure () from hcall] at hsafe
        obtain ⟨p, hheld, -⟩ := hsafe
        exact safe_scan hheld

/-- In every state of any run each transaction that is done has been attempted, and its rows
are stored unless its latest attempt was not given the transaction or had a query refused.
After each turn of the loop what was listed is done or has been asked for in that turn. -/
theorem done_is_stored (labels : List (Label Event Call))
    (hfollows : insertOnly.follows system labels initial) :
    let c := system.run labels initial
    (∀ txid ∈ c.shared.process.done, ∃ attempt,
      c.shared.process.lastAttempt txid = some attempt ∧
        ∀ tx, attempt.data = some tx → attempt.refused = false → Stored txid tx c.shared.db) ∧
    (c.prog = .pure () → ∀ txid ∈ c.shared.process.listed,
      txid ∈ c.shared.process.done ∨ txid ∈ c.shared.process.asked) := by
  intro c
  have hsafe := safe_run labels hfollows
  have hkept : Kept c.shared := kept_of_safe hsafe
  constructor
  · intro txid hdone
    obtain ⟨-, attempt, hlast, hstores⟩ := hkept.marked txid hdone
    obtain rfl : attempt.txid = txid := by simpa using List.find?_some hlast
    exact ⟨attempt, hlast, hstores⟩
  · intro hreturned
    rw [SafeConfig, hreturned] at hsafe
    obtain ⟨p, hheld, hlisted⟩ := hsafe
    rw [hheld.process]
    exact hlisted

/-! ## One turn -/

/-- A transaction of the mempool, and a database with the output it spends. -/
def child : Transaction :=
  ⟨hashStarting 2, 4, 0, [⟨⟨hashStarting 1, 0⟩, []⟩], [⟨7, ⟨none⟩⟩]⟩

def indexed : Db :=
  { Db.empty with
    bulkMode := some false
    schema := .normal
    output := [OutputFormatter.row .bitcoin (hashStarting 1) ⟨10, ⟨none⟩⟩ 0] }

/-- The store is opened and the child is listed once, for which the node gives `answer`. -/
def oneTurn (answer : Option Transaction) : List (Label Event Call) :=
  [.other (.commit indexed), .call (.start .bitcoin), .step false, .step false,
    .other (.node [child.txid] fun _ => answer), .call .scan] ++ List.replicate 9 (.step false)

theorem follows_oneTurn (answer : Option Transaction)
    (hanswer : ∀ tx, answer = some tx → tx.isCoinBase = false) :
    insertOnly.follows system (oneTurn answer) initial := by
  have hcommit : Extends initial.shared.db indexed :=
    ⟨⟨by decide, by decide⟩, fun _ => rfl, by simp [initial, Db.empty], by simp [initial, Db.empty],
      by simp [initial, Db.empty]⟩
  rw [oneTurn, Discipline.follows_append]
  constructor
  · exact ⟨hcommit, trivial, fun _ _ _ => trivial, fun _ _ _ => trivial, fun _ => hanswer, rfl,
      trivial⟩
  · exact ⟨fun _ _ _ => trivial, fun _ _ _ => trivial, fun _ _ _ => trivial, fun _ _ _ => trivial,
      fun _ _ _ => trivial, fun _ _ _ => trivial, fun _ _ _ => trivial, fun _ _ _ => trivial,
      fun _ _ _ => trivial, trivial⟩

theorem child_is_stored :
    let w := (system.run (oneTurn (some child)) initial).shared
    child.txid ∈ w.process.done ∧ Stored child.txid child w.db := by
  intro w
  have hstored := done_is_stored (oneTurn (some child))
    (follows_oneTurn _ fun tx htx => Option.some.inj htx ▸ by decide)
  have hdone : child.txid ∈ w.process.done := by decide +kernel
  obtain ⟨attempt, hlast, hstores⟩ := hstored.1 child.txid hdone
  have hattempt : w.process.lastAttempt child.txid = some ⟨child.txid, some child, false⟩ := by
    decide +kernel
  obtain rfl : _ = attempt := Option.some.inj (hattempt.symm.trans hlast)
  exact ⟨hdone, hstores child rfl rfl⟩

/-- A transaction the node did not give is done, and never stored. -/
theorem missing_is_done :
    ¬ ∀ labels : List (Label Event Call), insertOnly.follows system labels initial →
      ∀ txid ∈ (system.run labels initial).shared.process.done,
        hashToHashId txid ∈ (system.run labels initial).shared.db.tx.map (·.hashId) := by
  intro h
  have hdone := h (oneTurn none) (follows_oneTurn none fun _ htx => by cases htx) child.txid
    (by decide +kernel)
  exact absurd hdone (by decide +kernel)

end BitcoinIndexer.MempoolDone
