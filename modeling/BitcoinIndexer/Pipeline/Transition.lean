import BitcoinIndexer.Db.Worker

/-!
# What one step of a worker can do

The inversion of `World.step`: one constructor for each thing a thread does between
two accesses, with everything the step looked at as a premise.
-/

namespace BitcoinIndexer.Pipeline

open BitcoinIndexer.Tables
open BitcoinIndexer.Formatter
open BitcoinIndexer.UtxoCache
open BitcoinIndexer.Worker

inductive Transition (w : World) (p : Workers) : WorkerEvent → World → Prop where
  | stay (event : WorkerEvent) : Transition w p event w
  | utxoDone (hrecv : p.utxo = .recv) (htx : p.txOpen = false) :
      Transition w p (.utxo false) { w with workers := some { p with utxo := .exited .ok } }
  | utxoDied (fails : Bool) (exit : Exit) (hexit : exit ≠ .ok) (hlive : p.utxo.exit = none) :
      Transition w p (.utxo fails) { w with
        workers := some { p with utxo := .exited exit }
        failed := w.failed ++ p.utxo.held }
  | blocksProcessed (batch : Batch) (consumed : UtxoSetCache.Consumed)
      (hreceived : p.utxo = .received batch)
      (hlocal : p.utxoSetCache.processLocal batch.blocks
        (txIdMapFromBlocks batch.blocks p.network) = .ok consumed) :
      Transition w p (.utxo false) { w with
        workers := some { p with
          utxoSetCache := consumed.cache
          utxo := .fetching batch
            ⟨txIdMapFromBlocks batch.blocks p.network, consumed.found, consumed.missing,
              fmtFetchOutputsSql consumed.missing, ∅⟩ } }
  | chunkFetched (batch : Batch) (fetch : Fetching) (chunk : List HashIdOutPoint)
      (queries : List (List HashIdOutPoint)) (hfetching : p.utxo = .fetching batch fetch)
      (hqueries : fetch.queries = chunk :: queries) :
      Transition w p (.utxo false) { w with
        workers := some { p with
          utxo := .fetching batch
            { fetch with queries := queries, out := fetchChunk chunk w.db fetch.out } } }
  | fetched (batch : Batch) (fetch : Fetching) (hfetching : p.utxo = .fetching batch fetch)
      (hqueries : fetch.queries = []) (hall : fetchedAll fetch.missing fetch.out = true) :
      Transition w p (.utxo false) { w with
        workers := some { p with
          utxo := .send ⟨batch, insertFetched fetch.found fetch.out, fetch.txIds⟩ } }
  | utxoSent (msg : UtxoMsg) (hsend : p.utxo = .send msg) (hrecv : p.queryFmt = .recv) :
      Transition w p (.queryFmt false) { w with
        workers := some { p with utxo := .recv, queryFmt := .received msg } }
  | formatted (msg : UtxoMsg) (queries : Queries) (height : ℕ)
      (hreceived : p.queryFmt = .received msg)
      (hqueries : fmtInsertBlockdataSql msg.batch.blocks msg.inputsUtxoMap msg.txIds p.mode
        p.network = .ok queries) :
      Transition w p (.queryFmt false) { w with
        workers := some { p with
          queryFmt := .send
            { batch := msg.batch
              queries := queries
              blockIds := msg.batch.ids.toFinset
              maxBlockHeight := height
              txLen := (msg.batch.blocks.map (·.data.txdata.length)).sum } } }
  | queryFmtDone (hrecv : p.queryFmt = .recv) (hutxo : p.utxo.exit.isSome) :
      Transition w p (.queryFmt false)
        { w with workers := some { p with queryFmt := .exited .ok } }
  | queryFmtDied (fails : Bool) (exit : Exit) (hexit : exit ≠ .ok)
      (hlive : p.queryFmt.exit = none) :
      Transition w p (.queryFmt fails) { w with
        workers := some { p with queryFmt := .exited exit }
        failed := w.failed ++ p.queryFmt.held }
  | queriesSent (msg : WriterMsg) (hsend : p.queryFmt = .send msg) (hrecv : p.writer = .recv) :
      Transition w p (.writer none)
        { w with workers := some { p with queryFmt := .recv, writer := .received msg } }
  | committed (msg : WriterMsg) (db : Db) (hreceived : p.writer = .received msg)
      (hexecute : executeAll msg.queries.toList w.db = (db, none)) :
      Transition w p (.writer none)
        { (w.publish db).setWriter (.committed msg) p with
          committed := w.committed ++ [msg.batch] }
  | refused (failAt : Option ℕ) (msg : WriterMsg) (transaction : Db) (error : SqlError)
      (hreceived : p.writer = .received msg)
      (herror : error = .failed ∨
        ∃ count, (executeAll (msg.queries.toList.take count) w.db).2 = some error) :
      Transition w p (.writer failAt)
        { (w.publish (w.db.rollback transaction)).setWriter (.exited (.err error)) p with
          failed := w.failed ++ [msg.batch] }
  | acknowledged (msg : WriterMsg) (hcommitted : p.writer = .committed msg)
      (hsubset : msg.blockIds ⊆ w.inFlight) :
      Transition w p (.writer none)
        { w.setWriter .recv p with inFlight := w.inFlight \ msg.blockIds }
  | anyMissing (msg : WriterMsg) (hcommitted : p.writer = .committed msg)
      (hsubset : ¬ msg.blockIds ⊆ w.inFlight) :
      Transition w p (.writer none)
        { w.setWriter (.exited (.panicked .anyMissing)) p with
          inFlight := w.inFlight \ msg.blockIds
          failed := w.failed ++ [msg.batch] }
  | writerDone (hrecv : p.writer = .recv) (hqueryFmt : p.queryFmt.exit.isSome) :
      Transition w p (.writer none) (w.setWriter (.exited .ok) p)
  | writerDied (count : ℕ) (hwriter : p.writer.held = []) (hlive : p.writer.exit = none) :
      Transition w p (.writer (some count))
        { w.setWriter (.exited (.err .failed)) p with failed := w.failed ++ p.writer.acking }

variable {w : World} {p : Workers}

/-! ## The UTXO fetching thread -/

theorem step_utxo (hworkers : w.workers = some p) {fails : Bool} {q : Workers}
    (hstep : p.utxoStep fails w.db = q) (hlost : lost q.utxo.exit p.utxo.held = []) :
    w.step (.utxo fails) = { w with workers := some q } := by
  simp [World.step, hworkers, hstep, hlost]

theorem step_utxo_same (hworkers : w.workers = some p) {fails : Bool}
    (hstep : p.utxoStep fails w.db = p) : w.step (.utxo fails) = w := by
  have hlost : lost p.utxo.exit p.utxo.held = [] := by
    cases p.utxo <;> rfl
  rw [step_utxo hworkers hstep hlost, ← hworkers]

theorem transition_utxoDied (hworkers : w.workers = some p) {fails : Bool} (exit : Exit)
    (hexit : exit ≠ .ok) (hlive : p.utxo.exit = none)
    (hstep : p.utxoStep fails w.db = p.exitUtxo exit) :
    Transition w p (.utxo fails) (w.step (.utxo fails)) := by
  have h := Transition.utxoDied (w := w) fails exit hexit hlive
  simpa [World.step, hworkers, hstep, Workers.exitUtxo, lost] using h

theorem utxoStep_true (hlive : p.utxo.exit = none) (db : Db) :
    p.utxoStep true db = p.exitUtxo (.err .failed) := by
  cases hutxo : p.utxo <;> simp_all [Workers.utxoStep]

theorem transition_utxo (hworkers : w.workers = some p) (fails : Bool) :
    Transition w p (.utxo fails) (w.step (.utxo fails)) := by
  cases hexit : p.utxo.exit with
  | some exit =>
      have hsame : p.utxoStep fails w.db = p := by
        cases hutxo : p.utxo <;> simp_all [Workers.utxoStep]
      rw [step_utxo_same hworkers hsame]
      exact .stay _
  | none =>
      cases fails with
      | true =>
          exact transition_utxoDied hworkers _ (by simp) hexit (utxoStep_true hexit w.db)
      | false =>
          cases hutxo : p.utxo with
          | exited exit => simp [hutxo] at hexit
          | recv =>
              cases htx : p.txOpen with
              | true =>
                  rw [step_utxo_same hworkers (by simp [Workers.utxoStep, hutxo, htx])]
                  exact .stay _
              | false =>
                  rw [step_utxo hworkers (q := p.exitUtxo .ok)
                    (by simp [Workers.utxoStep, hutxo, htx]) (by simp [hutxo, lost])]
                  exact .utxoDone hutxo htx
          | received batch =>
              cases hlocal : p.utxoSetCache.processLocal batch.blocks
                  (txIdMapFromBlocks batch.blocks p.network) with
              | error panic =>
                  exact transition_utxoDied hworkers (.panicked (.format panic)) (by simp) hexit
                    (by simp [Workers.utxoStep, hutxo, Workers.startProcessBlocks, hlocal])
              | ok consumed =>
                  have hstep : p.utxoStep false w.db = p.startProcessBlocks batch := by
                    simp [Workers.utxoStep, hutxo]
                  simp only [Workers.startProcessBlocks, hlocal] at hstep
                  rw [step_utxo hworkers hstep rfl]
                  exact .blocksProcessed batch consumed hutxo hlocal
          | fetching batch fetch =>
              have hstep : p.utxoStep false w.db = p.fetchStep batch fetch w.db := by
                simp [Workers.utxoStep, hutxo]
              cases hqueries : fetch.queries with
              | cons chunk queries =>
                  simp only [Workers.fetchStep, hqueries] at hstep
                  rw [step_utxo hworkers hstep rfl]
                  exact .chunkFetched batch fetch chunk queries hutxo hqueries
              | nil =>
                  cases hall : fetchedAll fetch.missing fetch.out with
                  | true =>
                      simp only [Workers.fetchStep, hqueries, hall, if_true] at hstep
                      rw [step_utxo hworkers hstep rfl]
                      exact .fetched batch fetch hutxo hqueries hall
                  | false =>
                      exact transition_utxoDied hworkers (.panicked .fetchedCount) (by simp) hexit
                        (by simp [hstep, Workers.fetchStep, hqueries, hall])
          | send msg =>
              cases hgone : p.queryFmt.exit.isSome with
              | true =>
                  exact transition_utxoDied hworkers (.panicked .sendFailed) (by simp) hexit
                    (by simp [Workers.utxoStep, hutxo, hgone])
              | false =>
                  rw [step_utxo_same hworkers (by simp [Workers.utxoStep, hutxo, hgone])]
                  exact .stay _

/-! ## The query formatting thread -/

theorem step_queryFmt (hworkers : w.workers = some p) {fails : Bool} {q : Workers}
    (hstep : p.queryFmtStep fails = q)
    (hlost : lost q.queryFmt.exit p.queryFmt.held = []) :
    w.step (.queryFmt fails) = { w with workers := some q } := by
  simp [World.step, hworkers, hstep, hlost]

theorem step_queryFmt_same (hworkers : w.workers = some p) {fails : Bool}
    (hstep : p.queryFmtStep fails = p) : w.step (.queryFmt fails) = w := by
  have hlost : lost p.queryFmt.exit p.queryFmt.held = [] := by
    cases p.queryFmt <;> rfl
  rw [step_queryFmt hworkers hstep hlost, ← hworkers]

theorem transition_queryFmtDied (hworkers : w.workers = some p) {fails : Bool} (exit : Exit)
    (hexit : exit ≠ .ok) (hlive : p.queryFmt.exit = none)
    (hstep : p.queryFmtStep fails = p.exitQueryFmt exit) :
    Transition w p (.queryFmt fails) (w.step (.queryFmt fails)) := by
  have h := Transition.queryFmtDied (w := w) fails exit hexit hlive
  simpa [World.step, hworkers, hstep, Workers.exitQueryFmt, lost] using h

theorem queryFmtStep_true (hlive : p.queryFmt.exit = none) :
    p.queryFmtStep true = p.exitQueryFmt (.err .failed) := by
  cases hqueryFmt : p.queryFmt <;> simp_all [Workers.queryFmtStep]

theorem transition_format (hworkers : w.workers = some p) (msg : UtxoMsg)
    (hqueryFmt : p.queryFmt = .received msg) :
    Transition w p (.queryFmt false) (w.step (.queryFmt false)) := by
  have hlive : p.queryFmt.exit = none := by simp [hqueryFmt]
  have hstep : p.queryFmtStep false = p.formatStep msg := by
    simp [Workers.queryFmtStep, hqueryFmt]
  cases hqueries : fmtInsertBlockdataSql msg.batch.blocks msg.inputsUtxoMap msg.txIds p.mode
      p.network with
  | error panic =>
      exact transition_queryFmtDied hworkers (.panicked (.format panic)) (by simp) hlive
        (by simp [hstep, Workers.formatStep, hqueries])
  | ok queries =>
      cases hlast : msg.batch.blocks.getLast? with
      | none =>
          exact transition_queryFmtDied hworkers (.panicked .noBlock) (by simp) hlive
            (by simp [hstep, Workers.formatStep, hqueries, hlast])
      | some block =>
          simp only [Workers.formatStep, hqueries, hlast] at hstep
          rw [step_queryFmt hworkers hstep rfl]
          exact .formatted msg queries block.height hqueryFmt hqueries

theorem transition_queryFmt (hworkers : w.workers = some p) (fails : Bool) :
    Transition w p (.queryFmt fails) (w.step (.queryFmt fails)) := by
  cases hexit : p.queryFmt.exit with
  | some exit =>
      have hsame : p.queryFmtStep fails = p := by
        cases hqueryFmt : p.queryFmt <;> simp_all [Workers.queryFmtStep]
      rw [step_queryFmt_same hworkers hsame]
      exact .stay _
  | none =>
      cases fails with
      | true => exact transition_queryFmtDied hworkers _ (by simp) hexit (queryFmtStep_true hexit)
      | false =>
          cases hqueryFmt : p.queryFmt with
          | exited exit => simp [hqueryFmt] at hexit
          | received msg => exact transition_format hworkers msg hqueryFmt
          | recv =>
              cases hutxo : p.utxo with
              | send msg =>
                  rw [step_queryFmt hworkers (q := { p with
                    utxo := .recv, queryFmt := .received msg })
                    (by simp [Workers.queryFmtStep, hqueryFmt, hutxo]) rfl]
                  exact .utxoSent msg hutxo hqueryFmt
              | exited exit =>
                  rw [step_queryFmt hworkers (q := p.exitQueryFmt .ok)
                    (by simp [Workers.queryFmtStep, hqueryFmt, hutxo])
                    (by simp [hqueryFmt, lost])]
                  exact .queryFmtDone hqueryFmt (by simp [hutxo])
              | _ =>
                  rw [step_queryFmt_same hworkers
                    (by simp [Workers.queryFmtStep, hqueryFmt, hutxo])]
                  exact .stay _
          | send msg =>
              cases hgone : p.writer.exit.isSome with
              | true =>
                  exact transition_queryFmtDied hworkers (.panicked .sendFailed) (by simp) hexit
                    (by simp [Workers.queryFmtStep, hqueryFmt, hgone])
              | false =>
                  rw [step_queryFmt_same hworkers
                    (by simp [Workers.queryFmtStep, hqueryFmt, hgone])]
                  exact .stay _

/-! ## The writer thread -/

theorem transition_commit (failAt : Option ℕ) (msg : WriterMsg)
    (hwriter : p.writer = .received msg) :
    Transition w p (.writer failAt) (w.commitStep failAt msg p) := by
  cases failAt with
  | none =>
      cases hexecute : executeAll msg.queries.toList w.db with
      | mk transaction result =>
          cases result with
          | none =>
              simpa [World.commitStep, commitAtomicBulkInsertSql, hexecute] using
                Transition.committed (w := w) msg transaction hwriter hexecute
          | some error =>
              have herror : (executeAll (msg.queries.toList.take 6) w.db).2 = some error := by
                simpa [Queries.toList] using congrArg Prod.snd hexecute
              simpa [World.commitStep, commitAtomicBulkInsertSql, hexecute] using
                Transition.refused (w := w) none msg transaction error hwriter (.inr ⟨6, herror⟩)
  | some count =>
      cases hexecute : executeAll (msg.queries.toList.take count) w.db with
      | mk transaction result =>
          have herror : result.getD .failed = .failed ∨ ∃ count,
              (executeAll (msg.queries.toList.take count) w.db).2 =
                some (result.getD .failed) := by
            cases result with
            | none => exact .inl rfl
            | some error => exact .inr ⟨count, by simp [hexecute]⟩
          simpa [World.commitStep, commitAtomicBulkInsertSql, hexecute] using
            Transition.refused (w := w) (some count) msg transaction (result.getD .failed) hwriter
              herror

theorem transition_writer (hworkers : w.workers = some p) (failAt : Option ℕ) :
    Transition w p (.writer failAt) (w.step (.writer failAt)) := by
  have hstep : w.step (.writer failAt) = w.writerStep failAt p := by
    simp [World.step, hworkers]
  rw [hstep, World.writerStep]
  cases hwriter : p.writer with
  | exited exit => exact .stay _
  | received msg => exact transition_commit failAt msg hwriter
  | recv =>
      cases failAt with
      | some count =>
          simpa [hwriter, World.setWriter] using
            Transition.writerDied (w := w) (p := p) count (by simp [hwriter])
              (by simp [hwriter])
      | none =>
          cases hqueryFmt : p.queryFmt with
          | send msg => exact .queriesSent msg hqueryFmt hwriter
          | exited exit =>
              exact .writerDone hwriter (by simp [hqueryFmt])
          | _ => exact .stay _
  | committed msg =>
      cases failAt with
      | some count =>
          simpa [hwriter, World.setWriter] using
            Transition.writerDied (w := w) (p := p) count (by simp [hwriter])
              (by simp [hwriter])
      | none =>
          by_cases hsubset : msg.blockIds ⊆ w.inFlight
          · simpa [World.ackStep, hsubset] using
              Transition.acknowledged (w := w) msg hwriter hsubset
          · simpa [World.ackStep, hsubset] using
              Transition.anyMissing (w := w) msg hwriter hsubset

theorem transition_step (hworkers : w.workers = some p) (event : WorkerEvent) :
    Transition w p event (w.step event) := by
  cases event with
  | utxo fails => exact transition_utxo hworkers fails
  | queryFmt fails => exact transition_queryFmt hworkers fails
  | writer failAt => exact transition_writer hworkers failAt

@[simp]
theorem step_none (hworkers : w.workers = none) (event : WorkerEvent) : w.step event = w := by
  simp [World.step, hworkers]

theorem txn_step (w : World) (event : WorkerEvent) : (w.step event).txn = w.txn := by
  cases hworkers : w.workers with
  | none => rw [step_none hworkers]
  | some p =>
      have htransition := transition_step hworkers event
      generalize w.step event = after at htransition ⊢
      cases htransition <;> rfl

end BitcoinIndexer.Pipeline
