import BitcoinIndexer.Mempool.Done

/-!
# Transactions that are stored in parts

`insert_tx_data` sends three strings one after the other, and each commits on its own.
Whoever looks in between, or a failure, finds what the first of them have added.
-/

namespace BitcoinIndexer.Partial

open BitcoinIndexer.Types
open BitcoinIndexer.Tables
open BitcoinIndexer.Formatter
open BitcoinIndexer.UtxoCache
open BitcoinIndexer.StoredRows
open BitcoinIndexer.Execution
open BitcoinIndexer.UniqueKeys (outputKey inputKey outputClash_normal inputClash_normal)
open BitcoinIndexer.Interleaving
open BitcoinIndexer.Mempool
open BitcoinIndexer.MempoolDone

variable {db : Db} {txid : Txid} {tx : Transaction} {network : Network} {w : World}
variable {store : MempoolStore} {fails : ℕ → Bool}

/-! ## The rows of a call -/

/-- Rows by the keys that normal mode has for them. -/
structure Keys where
  tx : List HashId
  output : List (HashId × ℕ)
  input : List (HashId × ℕ × HashId)
  deriving DecidableEq

/-- The rows of the transaction that are not stored yet: the call is to add them. -/
def missing (txid : Txid) (tx : Transaction) (db : Db) : Keys where
  tx := [hashToHashId txid].filter fun key => !(db.tx.map (·.hashId)).contains key
  output := ((List.range tx.output.length).map fun idx => (hashToHashId txid, idx)).filter
    fun key => !(db.output.map outputKey).contains key
  input := ((inputRows (txid, tx)).map inputKey).filter
    fun key => !(db.input.map inputKey).contains key

/-- None of them is in the database. -/
structure NoneStored (keys : Keys) (db : Db) : Prop where
  tx : ∀ key ∈ keys.tx, key ∉ db.tx.map (·.hashId)
  output : ∀ key ∈ keys.output, key ∉ db.output.map outputKey
  input : ∀ key ∈ keys.input, key ∉ db.input.map inputKey

/-- All of them are. -/
structure AllStored (keys : Keys) (db : Db) : Prop where
  tx : keys.tx ⊆ db.tx.map (·.hashId)
  output : keys.output ⊆ db.output.map outputKey
  input : keys.input ⊆ db.input.map inputKey

/-- None of the rows or all of them. -/
def Whole (keys : Keys) (db : Db) : Prop := NoneStored keys db ∨ AllStored keys db

/-- Nobody ever sees a part of them, and an error leaves the database as it was before. -/
structure AllOrNothing (fails : ℕ → Bool) (prog : MempoolM (Except InsertError Unit)) (keys : Keys)
    (before : Db) (store : MempoolStore) (w : World) : Prop where
  seen : ∀ later ∈ visible system fails prog store w, Whole keys later.db
  refused : ∀ error store' after,
    outcome system fails prog store w = some (.error error, store', after) → after.db = before

/-! ## How far a call gets -/

/-- The chunks of the query for the outputs that it spends. -/
def chunks (tx : Transaction) : ℕ := (fmtFetchOutputsSql (hashIdOutPoints tx)).length

/-- What these queries find. -/
def fetched (tx : Transaction) (db : Db) : UtxoDetailsMap :=
  (fmtFetchOutputsSql (hashIdOutPoints tx)).foldl (fun out chunk => fetchChunk chunk db out) ∅

/-- No query fails, all spent outputs are found, and the strings can be written. -/
def writes (fails : ℕ → Bool) (store : MempoolStore) (txid : Txid) (tx : Transaction)
    (db : Db) : Bool :=
  decide (∀ i < chunks tx, fails i = false) &&
    decide ((fetched tx db).keys.length = tx.input.length) &&
    ((TxFormatter.newForInMempool store.network (fetched tx db)).fmt none tx txid).isOk

/-- The number of strings before the first statement that fails. -/
def executed (fails : ℕ → Bool) (store : MempoolStore) (txid : Txid) (tx : Transaction)
    (db : Db) : ℕ :=
  if !writes fails store txid tx db then 0
  else if fails (chunks tx) then 0
  else if fails (chunks tx + 1) then 1
  else if fails (chunks tx + 2) then 2
  else 3

/-- Whether each string adds a row. -/
def adds (keys : Keys) : List Bool :=
  [!keys.tx.isEmpty, !keys.output.isEmpty, !keys.input.isEmpty]

/-! ## What a string adds -/

/-- The keys were not stored, now they are, and without any nothing changes. -/
structure Added {ρ κ : Type} (key : ρ → κ) (missing : List κ) (before after : List ρ) : Prop where
  absent : ∀ value ∈ missing, value ∉ before.map key
  stored : missing ⊆ after.map key
  unchanged : missing = [] → after = before

section Added

variable {ρ κ : Type} {key : ρ → κ} {keys : List κ} {before after : List ρ}

theorem Added.none_after (h : Added key keys before after) :
    (∀ value ∈ keys, value ∉ after.map key) ↔ keys = [] := by
  rw [List.eq_nil_iff_forall_not_mem]
  constructor
  · exact fun hnone value hmem => hnone value hmem (h.stored hmem)
  · exact fun hempty value hmem => absurd hmem (hempty value)

theorem Added.all_before (h : Added key keys before after) :
    keys ⊆ before.map key ↔ keys = [] := by
  rw [List.eq_nil_iff_forall_not_mem]
  constructor
  · exact fun hall value hmem => h.absent value hmem (hall hmem)
  · exact fun hempty value hmem => absurd hmem (hempty value)

theorem Added.eq_iff (h : Added key keys before after) : after = before ↔ keys = [] := by
  refine ⟨fun heq => ?_, h.unchanged⟩
  apply h.all_before.1
  rw [← heq]
  exact h.stored

/-- The new keys are those of the rows that are not stored. -/
theorem added_of_rows {rows : List ρ}
    (hkeys : ∀ value, value ∈ after.map key ↔ value ∈ before.map key ∨ value ∈ rows.map key)
    (hunchanged : rows.map key ⊆ before.map key → after = before)
    (hnew : ∀ value, value ∈ keys ↔ value ∈ rows.map key ∧ value ∉ before.map key) :
    Added key keys before after where
  absent := fun value hmem => ((hnew value).1 hmem).2
  stored := fun value hmem => (hkeys value).2 (.inr ((hnew value).1 hmem).1)
  unchanged := by
    intro hempty
    apply hunchanged
    intro value hmem
    by_contra hnot
    have hin := (hnew value).2 ⟨hmem, hnot⟩
    rw [hempty] at hin
    exact absurd hin List.not_mem_nil

end Added

/-- The three strings succeed, and this is what they leave. -/
structure Strings (f : TxFormatter) (keys : Keys) (now : ℕ) (db : Db) (txs : List TxRow)
    (outputs : List OutputRow) (inputs : List InputRow) : Prop where
  first : batchExecute Db.insertTx (stamped now f.tx.drop) db = .ok { db with tx := txs }
  second : batchExecute Db.insertOutput f.outputFmt.drop { db with tx := txs } =
    .ok { db with tx := txs, output := outputs }
  third : batchExecute Db.insertInput f.inputFmt.drop { db with tx := txs, output := outputs } =
    .ok { db with tx := txs, output := outputs, input := inputs }
  tx : Added (·.hashId) keys.tx db.tx txs
  output : Added outputKey keys.output db.output outputs
  input : Added inputKey keys.input db.input inputs

theorem exists_strings {utxoMap : UtxoDetailsMap} {f : TxFormatter}
    (hfmt : (TxFormatter.newForInMempool network utxoMap).fmt none tx txid = .ok f)
    (hschema : db.schema = .normal) (now : ℕ) :
    ∃ txs outputs inputs, Strings f (missing txid tx db) now db txs outputs inputs := by
  obtain ⟨htx, houtput, hinput⟩ := say_mempool hfmt
  obtain ⟨txs, hfirst, htxKeys, htxSame⟩ := batchExecute_skip txColumn txClash insertTx_eq
    mergesBy_hashId.same_iff (say_stamped now htx) hschema
  have hsecondSchema : ({ db with tx := txs } : Db).schema = .normal := hschema
  obtain ⟨outputs, hsecond, houtputKeys, houtputSame⟩ := batchExecute_skip outputColumn outputClash
    (fun _ _ _ => rfl) outputClash_normal houtput hsecondSchema
  have hthirdSchema : ({ db with tx := txs, output := outputs } : Db).schema = .normal := hschema
  obtain ⟨inputs, hthird, hinputKeys, hinputSame⟩ := batchExecute_skip inputColumn inputClash
    (fun _ _ _ => rfl) inputClash_normal hinput hthirdSchema
  refine ⟨txs, outputs, inputs, hfirst, hsecond, hthird, ?_, ?_, ?_⟩
  · apply added_of_rows htxKeys htxSame
    intro value
    simp [missing, TxFormatter.row, txColumn]
  · apply added_of_rows houtputKeys houtputSame
    intro value
    rw [outputKey_rows]
    simp [missing, outputColumn]
  · apply added_of_rows hinputKeys hinputSame
    intro value
    simp [missing, inputColumn]

/-! ## Between the strings -/

section Between

variable {f : TxFormatter} {keys : Keys} {now : ℕ} {txs : List TxRow} {outputs : List OutputRow}
variable {inputs : List InputRow} (h : Strings f keys now db txs outputs inputs)

include h

theorem whole_before : Whole keys db :=
  .inl ⟨h.tx.absent, h.output.absent, h.input.absent⟩

theorem whole_after : Whole keys { db with tx := txs, output := outputs, input := inputs } :=
  .inr ⟨h.tx.stored, h.output.stored, h.input.stored⟩

theorem whole_first : Whole keys { db with tx := txs } ↔
    keys.tx = [] ∨ keys.output = [] ∧ keys.input = [] := by
  apply or_congr
  · rw [← h.tx.none_after]
    exact ⟨fun hnone => hnone.tx, fun htx => ⟨htx, h.output.absent, h.input.absent⟩⟩
  · rw [← h.output.all_before, ← h.input.all_before]
    exact ⟨fun hall => ⟨hall.output, hall.input⟩, fun hboth => ⟨h.tx.stored, hboth.1, hboth.2⟩⟩

theorem whole_second : Whole keys { db with tx := txs, output := outputs } ↔
    (keys.tx = [] ∧ keys.output = []) ∨ keys.input = [] := by
  apply or_congr
  · rw [← h.tx.none_after, ← h.output.none_after]
    exact ⟨fun hnone => ⟨hnone.tx, hnone.output⟩, fun hboth => ⟨hboth.1, hboth.2, h.input.absent⟩⟩
  · rw [← h.input.all_before]
    exact ⟨fun hall => hall.input, fun hinput => ⟨h.tx.stored, h.output.stored, hinput⟩⟩

theorem same_first : { db with tx := txs } = db ↔ keys.tx = [] := by
  rw [← h.tx.eq_iff]
  constructor
  · exact fun heq => congrArg Db.tx heq
  · rintro rfl
    rfl

theorem same_second : { db with tx := txs, output := outputs } = db ↔
    keys.tx = [] ∧ keys.output = [] := by
  rw [← h.tx.eq_iff, ← h.output.eq_iff]
  constructor
  · exact fun heq => ⟨congrArg Db.tx heq, congrArg Db.output heq⟩
  · rintro ⟨rfl, rfl⟩
    rfl

end Between

/-! ## The call -/

section Call

variable {f : TxFormatter} {keys : Keys} {txs : List TxRow} {outputs : List OutputRow}
variable {inputs : List InputRow} {before : Db}

theorem allOrNothing_pure {result : Except InsertError Unit} :
    AllOrNothing fails (.pure result) keys before store w ↔
      Whole keys w.db ∧ (result ≠ .ok () → w.db = before) := by
  constructor
  · intro h
    refine ⟨h.seen w (List.mem_singleton_self w), fun hresult => ?_⟩
    cases result with
    | ok value => exact absurd rfl hresult
    | error error => exact h.refused error store w rfl
  · rintro ⟨hwhole, hsame⟩
    refine ⟨fun later hmem => List.mem_singleton.1 hmem ▸ hwhole, fun error store' after heq => ?_⟩
    obtain ⟨rfl, -, rfl⟩ : result = .error error ∧ store = store' ∧ w = after := by
      simpa [outcome] using heq
    exact hsame (by simp)

theorem allOrNothing_act {β : Type} {access : Act β}
    {next : β → MempoolM (Except InsertError Unit)} {value : β} {after : World}
    (hexec : system.exec access (fails 0) w = .done value after) :
    AllOrNothing fails (.act access next) keys before store w ↔
      Whole keys w.db ∧
        AllOrNothing (fun i => fails (i + 1)) (next value) keys before store after := by
  have hvisible : visible system fails (.act access next) store w =
      w :: visible system (fun i => fails (i + 1)) (next value) store after := by
    simp only [visible, hexec]
  have houtcome : outcome system fails (.act access next) store w =
      outcome system (fun i => fails (i + 1)) (next value) store after := by
    simp only [outcome, hexec]
  constructor
  · intro h
    refine ⟨h.seen w ?_, fun later hmem => h.seen later ?_, ?_⟩
    · rw [hvisible]
      exact List.mem_cons_self
    · rw [hvisible]
      exact List.mem_cons_of_mem w hmem
    · rw [← houtcome]
      exact h.refused
  · rintro ⟨hwhole, hrest⟩
    refine ⟨fun later hmem => ?_, ?_⟩
    · rw [hvisible, List.mem_cons] at hmem
      obtain rfl | hmem := hmem
      · exact hwhole
      · exact hrest.seen later hmem
    · rw [houtcome]
      exact hrest.refused

/-- A string that fails ends the call; one that does not is followed by the others. -/
theorem allOrNothing_cons {statement : ℕ → Db → Except SqlError Db}
    {statements : List (ℕ → Db → Except SqlError Db)} {after : Db}
    (hok : statement w.clock w.db = .ok after) :
    AllOrNothing fails (executeQueries (statement :: statements)) keys before store w ↔
      Whole keys w.db ∧
        if fails 0 then w.db = before
        else AllOrNothing (fun i => fails (i + 1)) (executeQueries statements) keys before store
          { w with db := after } := by
  rw [executeQueries, Prog.bind_eq, Prog.perform_bind]
  cases hfails : fails 0 with
  | true =>
      have hexec : system.exec (.execute statement) (fails 0) w = .done (.error .failed) w := by
        rw [hfails]
        rfl
      rw [allOrNothing_act hexec]
      simp only [Prog.pure_eq, allOrNothing_pure, if_true]
      simp
  | false =>
      have hexec : system.exec (.execute statement) (fails 0) w =
          .done (.ok ()) { w with db := after } := by
        rw [hfails]
        simp only [system, exec, execStatement, hok]
      rw [allOrNothing_act hexec]
      simp

/-- The strings before the first failure decide. -/
theorem strings_iff (h : Strings f keys w.clock w.db txs outputs inputs) :
    AllOrNothing fails (executeQueries (mempoolQueries f)) keys w.db store w ↔
      if fails 0 then True
      else if fails 1 then keys.tx = []
      else if fails 2 then keys.tx = [] ∧ keys.output = []
      else (keys.tx = [] ∨ keys.output = [] ∧ keys.input = []) ∧
        ((keys.tx = [] ∧ keys.output = []) ∨ keys.input = []) := by
  have hbefore := whole_before h
  have hafter := whole_after h
  rw [mempoolQueries, allOrNothing_cons h.first, allOrNothing_cons h.second,
    allOrNothing_cons h.third, executeQueries, Prog.pure_eq, allOrNothing_pure]
  simp only [whole_first h, whole_second h, same_first h, same_second h]
  split_ifs <;> tauto

theorem allOrNothing_halt {reason : Halt} (hwhole : Whole keys w.db) :
    AllOrNothing fails (.halt reason) keys before store w where
  seen := fun _ hmem => List.mem_singleton.1 hmem ▸ hwhole
  refused := fun _ _ _ heq => absurd heq (by simp [outcome])

theorem allOrNothing_loc {β : Type} {update : MempoolStore → β × MempoolStore}
    {next : β → MempoolM (Except InsertError Unit)} :
    AllOrNothing fails (.loc update next) keys before store w ↔
      AllOrNothing fails (next (update store).1) keys before (update store).2 w :=
  ⟨fun h => ⟨h.seen, h.refused⟩, fun h => ⟨h.seen, h.refused⟩⟩

/-- Queries only read: what follows them decides. -/
theorem fetchOutputs_iff {rest : Except SqlError UtxoDetailsMap → MempoolM (Except InsertError Unit)}
    (hwhole : Whole keys w.db) (queries : List (List HashIdOutPoint)) :
    ∀ {fails : ℕ → Bool} (out : UtxoDetailsMap), (∀ i < queries.length, fails i = false) →
      (AllOrNothing fails ((fetchOutputs queries out).bind rest) keys before store w ↔
        AllOrNothing (fun i => fails (i + queries.length))
          (rest (.ok (queries.foldl (fun out chunk => fetchChunk chunk w.db out) out))) keys before
          store w) := by
  induction queries with
  | nil => exact fun _ _ => Iff.rfl
  | cons chunk queries ih =>
      intro fails out hanswered
      have hexec : system.exec (.query fun db => fetchChunk chunk db out) (fails 0) w =
          .done (.ok (fetchChunk chunk w.db out)) w := by
        rw [hanswered 0 (Nat.succ_pos _)]
        rfl
      have hrest : ∀ i < queries.length, fails (i + 1) = false :=
        fun i hi => hanswered (i + 1) (Nat.succ_lt_succ hi)
      rw [fetchOutputs, Prog.bind_eq, Prog.perform_bind, Prog.act_bind, allOrNothing_act hexec,
        and_iff_right hwhole]
      have hiff := ih (fetchChunk chunk w.db out) hrest
      simp only [List.foldl_cons, List.length_cons]
      exact hiff

/-- A query that fails ends the call with `Ok` and no statement. -/
theorem fetchOutputs_refused
    {rest : Except SqlError UtxoDetailsMap → MempoolM (Except InsertError Unit)}
    (hrest : ∀ error, rest (.error error) = .pure (.ok ())) (hwhole : Whole keys w.db)
    (queries : List (List HashIdOutPoint)) :
    ∀ {fails : ℕ → Bool} (out : UtxoDetailsMap), (∃ i < queries.length, fails i = true) →
      AllOrNothing fails ((fetchOutputs queries out).bind rest) keys before store w := by
  induction queries with
  | nil => exact fun _ ⟨_, hi, _⟩ => absurd hi (Nat.not_lt_zero _)
  | cons chunk queries ih =>
      rintro fails out ⟨i, hi, hfails⟩
      rw [fetchOutputs, Prog.bind_eq, Prog.perform_bind, Prog.act_bind]
      cases hfirst : fails 0 with
      | true =>
          have hexec : system.exec (.query fun db => fetchChunk chunk db out) (fails 0) w =
              .done (.error .failed) (w.remember (·.refuse)) := by
            rw [hfirst]
            rfl
          rw [allOrNothing_act hexec]
          refine ⟨hwhole, ?_⟩
          simp only [Prog.pure_eq, Prog.pure_bind, hrest, allOrNothing_pure]
          exact ⟨hwhole, by simp⟩
      | false =>
          have hexec : system.exec (.query fun db => fetchChunk chunk db out) (fails 0) w =
              .done (.ok (fetchChunk chunk w.db out)) w := by
            rw [hfirst]
            rfl
          rw [allOrNothing_act hexec]
          refine ⟨hwhole, ih _ ?_⟩
          cases i with
          | zero =>
              rw [hfirst] at hfails
              exact absurd hfails (by simp)
          | succ i => exact ⟨i, Nat.lt_of_succ_lt_succ hi, hfails⟩

end Call

/-- The condition on the three strings, counted. -/
theorem count_adds_iff (keys : Keys) (first second third : Bool) :
    (if first then True
      else if second then keys.tx = []
      else if third then keys.tx = [] ∧ keys.output = []
      else (keys.tx = [] ∨ keys.output = [] ∧ keys.input = []) ∧
        ((keys.tx = [] ∧ keys.output = []) ∨ keys.input = [])) ↔
      ((adds keys).take (if first then 0 else if second then 1 else if third then 2 else 3)).count
          true ≤
        if (if first then 0 else if second then 1 else if third then 2 else 3) = 3 then 1 else 0 := by
  simp only [adds, ← List.isEmpty_iff]
  cases first <;> cases second <;> cases third <;> cases keys.tx.isEmpty <;>
    cases keys.output.isEmpty <;> cases keys.input.isEmpty <;> decide

/-- Of the strings before the first failure none may add a row; where nothing fails, one of
the three may. -/
theorem all_or_nothing_iff (fails : ℕ → Bool) (store : MempoolStore) (txid : Txid)
    (tx : Transaction) (w : World) (hschema : w.db.schema = .normal) :
    AllOrNothing fails (Mempool.insert txid (some tx)) (missing txid tx w.db) w.db store w ↔
      ((adds (missing txid tx w.db)).take (executed fails store txid tx w.db)).count true ≤
        if executed fails store txid tx w.db = 3 then 1 else 0 := by
  have hwhole : Whole (missing txid tx w.db) w.db := by
    apply Or.inl
    constructor <;> intro key hmem <;> simpa using (List.mem_filter.1 hmem).2
  have hnothing : writes fails store txid tx w.db = false →
      ((adds (missing txid tx w.db)).take (executed fails store txid tx w.db)).count true ≤
        if executed fails store txid tx w.db = 3 then 1 else 0 := by
    intro hwrites
    simp [executed, hwrites]
  rw [Mempool.insert, Prog.bind_eq]
  by_cases hanswered : ∀ i < chunks tx, fails i = false
  · rw [fetchOutputs_iff hwhole _ ∅ hanswered]
    simp only [← fetched.eq_1, ← chunks.eq_1]
    by_cases hfound : (fetched tx w.db).keys.length = tx.input.length
    · rw [if_neg (not_not.2 hfound), insertTxData, Prog.bind_eq, Prog.read_bind,
        allOrNothing_loc]
      cases hfmt : (TxFormatter.newForInMempool store.network (fetched tx w.db)).fmt none tx txid with
      | error reason =>
          have hwrites : writes fails store txid tx w.db = false := by
            simp [writes, hfmt, Except.isOk, Except.toBool]
          exact iff_of_true (allOrNothing_halt hwhole) (hnothing hwrites)
      | ok f =>
          have hwrites : writes fails store txid tx w.db = true := by
            rw [writes, decide_eq_true hanswered, decide_eq_true hfound, hfmt]
            rfl
          obtain ⟨txs, outputs, inputs, hstrings⟩ := exists_strings hfmt hschema w.clock
          rw [strings_iff hstrings, count_adds_iff]
          simp only [executed, hwrites, Bool.not_true, Bool.false_eq_true, if_false, Nat.zero_add,
            Nat.add_comm 1 (chunks tx), Nat.add_comm 2 (chunks tx)]
    · have hwrites : writes fails store txid tx w.db = false := by
        simp [writes, hfound]
      rw [if_pos hfound, Prog.pure_eq, allOrNothing_pure]
      exact iff_of_true ⟨hwhole, fun _ => rfl⟩ (hnothing hwrites)
  · have hwrites : writes fails store txid tx w.db = false := by
      simp [writes, hanswered]
    have hrefused : ∃ i < chunks tx, fails i = true := by
      simpa using hanswered
    exact iff_of_true (fetchOutputs_refused (fun _ => rfl) hwhole _ ∅ hrefused) (hnothing hwrites)

/-! ## A retry, and a first attempt -/

def worldWith (db : Db) : World := ⟨db, 0, [], fun _ => none, .start⟩

/-- An earlier attempt at the child has stored its row and its output. -/
def retried : Db :=
  { indexed with
    tx := [TxFormatter.row none child child.txid 3]
    output := indexed.output ++ outputRows .bitcoin (child.txid, child) }

/-- The last string fails: only the inputs were missing, and they still are. -/
theorem retry_leaves_no_part :
    AllOrNothing (· = 3) (Mempool.insert child.txid (some child))
      (missing child.txid child retried) retried ⟨.bitcoin⟩ (worldWith retried) := by
  apply (all_or_nothing_iff (· = 3) ⟨.bitcoin⟩ child.txid child (worldWith retried) rfl).2
  decide +kernel

/-- The string of the outputs fails: the row of the transaction stays. -/
theorem failed_output_leaves_row :
    ¬ ∀ (fails : ℕ → Bool) (store : MempoolStore) (txid : Txid) (tx : Transaction) (w : World),
      w.db.schema = .normal →
        AllOrNothing fails (Mempool.insert txid (some tx)) (missing txid tx w.db) w.db store w := by
  intro h
  have hall := h (· = 2) ⟨.bitcoin⟩ child.txid child (worldWith indexed) rfl
  have hrows : (outcome system (· = 2) (Mempool.insert child.txid (some child)) ⟨.bitcoin⟩
      (worldWith indexed)).map (fun result => (result.1.isOk, result.2.2.db.tx.length)) =
        some (false, 1) := by
    decide +kernel
  obtain ⟨⟨result, store', after⟩, houtcome, hafter⟩ := Option.map_eq_some_iff.1 hrows
  cases result with
  | ok value => simp [Except.isOk, Except.toBool] at hafter
  | error error =>
      have hlength : after.db.tx.length = 1 := (Prod.mk.inj hafter).2
      rw [hall.refused error store' after houtcome] at hlength
      exact absurd hlength (by decide)

end BitcoinIndexer.Partial
