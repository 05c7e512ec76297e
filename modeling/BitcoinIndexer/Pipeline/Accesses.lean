import BitcoinIndexer.Db.IndexerStore

/-!
# What an access can do

The states an access of the caller may leave behind, whether it answers, waits or halts.
-/

namespace BitcoinIndexer.Pipeline

open BitcoinIndexer.Types
open BitcoinIndexer.Tables
open BitcoinIndexer.Worker
open BitcoinIndexer.Store
open BitcoinIndexer.Interleaving

/-- Handing over `batch` while the first thread stands at its `recv`. -/
def handOver (batch : Batch) (p : Workers) (w : World) : World :=
  { w with
    workers := some { p with utxo := .received batch }
    handed := w.handed ++ [batch] }

def lock (ids : List BlockHash) (w : World) : World :=
  { w with inFlight := w.inFlight ∪ ids.toFinset }

inductive Accessed (w : World) : {β : Type} → Act β → World → Prop where
  | stay {β : Type} (access : Act β) : Accessed w access w
  | locked (ids : List BlockHash) : Accessed w (.insertInFlight ids) (lock ids w)
  | handed (batch : Batch) (p : Workers) (hworkers : w.workers = some p) (hrecv : p.utxo = .recv) :
      Accessed w (.send batch) (handOver batch p w)
  | dropped : Accessed w .dropTx (dropSender w)
  | joined (thread : Thread) : Accessed w (.join thread) { w with workers := none }
  | spawned (mode : Mode) (network : Network) :
      Accessed w (.spawn mode network) { w with workers := some (.new mode network) }
  | executed (statement : Db → Except SqlError Db) (db : Db) (hstatement : statement w.db = .ok db) :
      Accessed w (.execute statement) (w.publish db)
  | began : Accessed w .begin { w with txn := some w.db }
  | wrote (statement : Db → Except SqlError Db) (transaction : Db) :
      Accessed w (.transExecute statement) { w with txn := some transaction }
  | committed (transaction : Db) (htxn : w.txn = some transaction) :
      Accessed w .commit { w.publish transaction with txn := none }
  | aborted {β : Type} (access : Act β) : Accessed w access (abort w)

theorem accessed_exec {β : Type} (access : Act β) (fails : Bool) (w : World) :
    Accessed w access ((exec access fails w).after w) := by
  cases access with
  | insertInFlight ids => exact .locked ids
  | lookInFlight => exact .stay _
  | assertInFlightEmpty =>
      simp only [exec]
      split_ifs <;> exact .stay _
  | pipelineIsNone => exact .stay _
  | send batch =>
      simp only [exec, sendTo]
      cases hworkers : w.workers with
      | none => exact .stay _
      | some p =>
          simp only
          cases hutxo : p.utxo with
          | recv => exact .handed batch p hworkers hutxo
          | _ => exact .stay _
  | dropTx => exact .dropped
  | join thread =>
      simp only [exec, joinThread]
      cases hworkers : w.workers with
      | none => exact .stay _
      | some p =>
          simp only
          cases hexit : exitOf thread p with
          | none => exact .stay _
          | some exit =>
              cases exit with
              | ok =>
                  simp only [Effect.after]
                  split_ifs
                  · exact .joined thread
                  · rw [← hworkers]
                    exact .stay _
              | _ => exact .stay _
  | spawn mode network => exact .spawned mode network
  | query select =>
      cases fails with
      | true => exact .stay _
      | false =>
          simp only [exec, execSelect]
          cases select w.db with
          | error error => exact .aborted _
          | ok value => exact .stay _
  | execute statement =>
      cases fails with
      | true => exact .stay _
      | false =>
          simp only [exec, execStatement]
          cases hstatement : statement w.db with
          | error error => exact .stay _
          | ok db => exact .executed statement db hstatement
  | begin =>
      cases fails with
      | true => exact .stay _
      | false => exact .began
  | transQuery select =>
      cases htxn : w.txn <;> cases fails <;> simp only [exec, htxn, execSelect]
      case some.false transaction =>
        cases select transaction with
        | error error => exact .aborted _
        | ok value => exact .stay _
      all_goals exact .aborted _
  | transExecute statement =>
      cases htxn : w.txn <;> cases fails <;> simp only [exec, htxn, execTrans]
      case some.false transaction =>
        cases statement transaction with
        | error error => exact .aborted _
        | ok after => exact .wrote statement after
      all_goals exact .aborted _
  | commit =>
      cases htxn : w.txn <;> cases fails <;> simp only [exec, htxn]
      case some.false transaction => exact .committed transaction htxn
      all_goals exact .aborted _

theorem workers_abort (w : World) : (abort w).workers = w.workers := by
  cases htxn : w.txn <;> simp [abort, htxn]

theorem txn_abort (w : World) : (abort w).txn = none := by
  cases htxn : w.txn <;> simp [abort, htxn]

theorem event_abort (w : World) : (abort w).db.event = w.db.event := by
  cases htxn : w.txn <;> simp [abort, htxn, Db.rollback]

/-- The writer is joined last, which ends the pipeline. -/
theorem workers_join {w after : World} {fails : Bool} {value : Unit}
    (h : exec (.join .writer) fails w = .done value after) : after.workers = none := by
  simp only [exec, joinThread] at h
  cases hworkers : w.workers with
  | none =>
      simp only [hworkers, Effect.done.injEq, true_and] at h
      exact h ▸ hworkers
  | some p =>
      simp only [hworkers] at h
      cases hexit : exitOf .writer p with
      | none => simp [hexit] at h
      | some exit =>
          cases exit <;> simp only [hexit, Effect.done.injEq, reduceCtorEq, true_and] at h
          rw [← h]
          rfl

/-- A statement in the transaction is executed there, or ends it. -/
theorem after_transExecute (statement : Db → Except SqlError Db) (fails : Bool) (w : World) :
    (exec (.transExecute statement) fails w).after w = abort w ∨
      ∃ before written, w.txn = some before ∧ statement before = .ok written ∧
        (exec (.transExecute statement) fails w).after w = { w with txn := some written } := by
  cases htxn : w.txn with
  | none => exact .inl (by simp only [exec, htxn, Effect.after])
  | some before =>
      cases fails with
      | true => exact .inl (by simp only [exec, htxn, Effect.after])
      | false =>
          simp only [exec, htxn, execTrans]
          cases hstatement : statement before with
          | error error => exact .inl rfl
          | ok written => exact .inr ⟨before, written, rfl, hstatement, rfl⟩

/-! ## How an access ends the caller -/

/-- What an access panics with when it meets workers that have failed. -/
def ofWorkers : List Panic := [.noWorkers, .sendFailed, .workerDied, .inFlightLeft]

/-- With an error of the database, or because of the workers. -/
inductive Ending : Halt → Prop where
  | err (error : SqlError) : Ending (.err error)
  | panicked (panic : Panic) (hmem : panic ∈ ofWorkers) : Ending (.panicked panic)

section Endings

variable {β : Type} {w after : World} {reason : Halt} {db : Db}

theorem ending_select {select : Db → Except SqlError β}
    (h : execSelect select db w = .halted reason after) : Ending reason := by
  rw [execSelect] at h
  cases hrow : select db with
  | ok value => simp [hrow] at h
  | error error =>
      simp only [hrow, Effect.halted.injEq] at h
      exact h.1 ▸ .err error

theorem ending_statement {statement : Db → Except SqlError Db}
    (h : execStatement statement w = .halted reason after) : Ending reason := by
  rw [execStatement] at h
  cases hwritten : statement w.db with
  | ok db => simp [hwritten] at h
  | error error =>
      simp only [hwritten, Effect.halted.injEq] at h
      exact h.1 ▸ .err error

theorem ending_trans {statement : Db → Except SqlError Db}
    (h : execTrans statement db w = .halted reason after) : Ending reason := by
  rw [execTrans] at h
  cases hwritten : statement db with
  | ok db => simp [hwritten] at h
  | error error =>
      simp only [hwritten, Effect.halted.injEq] at h
      exact h.1 ▸ .err error

theorem ending_send {batch : Batch} (h : sendTo batch w = .halted reason after) :
    Ending reason := by
  rw [sendTo] at h
  cases hworkers : w.workers with
  | none =>
      simp only [hworkers, Effect.halted.injEq] at h
      exact h.1 ▸ .panicked .noWorkers (by decide)
  | some p =>
      simp only [hworkers] at h
      cases hutxo : p.utxo with
      | exited exit =>
          simp only [hutxo, Effect.halted.injEq] at h
          exact h.1 ▸ .panicked .sendFailed (by decide)
      | _ => simp [hutxo] at h

theorem ending_join {thread : Thread} (h : joinThread thread w = .halted reason after) :
    Ending reason := by
  rw [joinThread] at h
  cases hworkers : w.workers with
  | none => simp [hworkers] at h
  | some p =>
      simp only [hworkers] at h
      cases hexit : exitOf thread p with
      | none => simp [hexit] at h
      | some exit =>
          cases exit with
          | ok => simp [hexit] at h
          | _ =>
              simp only [hexit, Effect.halted.injEq] at h
              exact h.1 ▸ .panicked .workerDied (by decide)

theorem ending_exec {access : Act β} {fails : Bool}
    (h : exec access fails w = .halted reason after) : Ending reason := by
  have hfailed : ∀ {w' : World}, Effect.halted (β := β) (.err .failed) w' = .halted reason after →
      Ending reason := fun heq => (Effect.halted.inj heq).1 ▸ .err .failed
  cases access with
  | insertInFlight | lookInFlight | pipelineIsNone | dropTx | spawn => simp [exec] at h
  | assertInFlightEmpty =>
      simp only [exec] at h
      split_ifs at h
      exact (Effect.halted.inj h).1 ▸ .panicked .inFlightLeft (by decide)
  | send batch => exact ending_send h
  | join thread => exact ending_join h
  | query select =>
      cases fails with
      | true => exact hfailed h
      | false => exact ending_select h
  | execute statement =>
      cases fails with
      | true => exact hfailed h
      | false => exact ending_statement h
  | begin =>
      cases fails with
      | true => exact hfailed h
      | false => simp [exec] at h
  | transQuery select =>
      cases htxn : w.txn <;> cases fails <;> simp only [exec, htxn] at h
      case some.false => exact ending_select h
      all_goals exact hfailed h
  | transExecute statement =>
      cases htxn : w.txn <;> cases fails <;> simp only [exec, htxn] at h
      case some.false => exact ending_trans h
      all_goals exact hfailed h
  | commit =>
      cases htxn : w.txn <;> cases fails <;> simp only [exec, htxn, reduceCtorEq] at h
      all_goals exact hfailed h

end Endings

end BitcoinIndexer.Pipeline
