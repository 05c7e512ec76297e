import BitcoinIndexer.Mempool.Store
import BitcoinIndexer.Modes.RunningMode

/-!
# The mode in the database

`indexer_state.bulk_mode` is written where bulk mode is left at the head of the node's
chain, and by the self test of a fresh store, which walks through all modes.  Wherever
nobody looks or dies within the self test, the flag is off only after the block at the
head was committed.
-/

namespace BitcoinIndexer.PersistedMode

open BitcoinIndexer.Types
open BitcoinIndexer.Tables
open BitcoinIndexer.Formatter
open BitcoinIndexer.Worker
open BitcoinIndexer.Store
open BitcoinIndexer.Pipeline
open BitcoinIndexer.Schedules
open BitcoinIndexer.CurrentHeight
open BitcoinIndexer.Keeping
open BitcoinIndexer.RunningMode (firstBlock)
open BitcoinIndexer.Interleaving

/-- Bulk mode has been left over an empty chain: so it is between the updates of the self
test to normal mode and back, and nowhere else but after a death there. -/
def InSelfTest (db : Db) : Prop := db.bulkMode = some false ∧ db.block = []

/-- Calls come in turn, and no process starts from within a self test. -/
def careful : Discipline Act IndexerStore Halt World WorkerEvent Call :=
  { answered with
    call := fun call c =>
      match call with
      | .start _ _ _ => ¬ InSelfTest c.shared.db
      | call => answered.call call c }

/-- The writer has committed a batch with the block, since the process was started. -/
def Committed (block : BlockData) (w : World) : Prop :=
  ∃ batch ∈ w.committed, block.id ∈ batch.ids

/-- The flag is set. -/
def Bulk (db : Db) : Prop := db.bulkMode = some true

variable {w after : World} {p : Workers} {block : BlockData} {store : IndexerStore} {db : Db}
variable {α γ : Type}

/-! ## The workers leave the flag alone -/

/-- What a message says about its ids, and that the writer acknowledges what it has
committed. -/
structure Acknowledges (p : Workers) (committed : List Batch) : Prop where
  send : ∀ msg, p.queryFmt = .send msg → msg.blockIds = msg.batch.ids.toFinset
  received : ∀ msg, p.writer = .received msg → msg.blockIds = msg.batch.ids.toFinset
  ids : ∀ msg, p.writer = .committed msg → msg.blockIds = msg.batch.ids.toFinset
  committed : ∀ msg, p.writer = .committed msg → msg.batch ∈ committed

/-- The flag is set, in the transaction too. -/
structure Clean (w : World) : Prop where
  bulk : Bulk w.db
  txn : ∀ transaction, w.txn = some transaction → Bulk transaction
  acks : ∀ p, w.workers = some p → Acknowledges p w.committed

/-- The block is in flight or has been committed. -/
def Tracked (block : BlockData) (w : World) : Prop :=
  block.id ∈ w.inFlight ∨ Committed block w

theorem bulkMode_step (w : World) (event : WorkerEvent) :
    (w.step event).db.bulkMode = w.db.bulkMode :=
  respected_state.step w event

theorem committed_step (h : Committed block w) (event : WorkerEvent) :
    Committed block (w.step event) := by
  cases hworkers : w.workers with
  | none => rwa [step_none hworkers]
  | some p =>
      have htransition := transition_step hworkers event
      generalize w.step event = after at htransition ⊢
      cases htransition with
      | committed msg db hreceived hexecute =>
          obtain ⟨batch, hbatch, hid⟩ := h
          exact ⟨batch, List.mem_append_left _ hbatch, hid⟩
      | _ => exact h

/-- One step of a worker, thread by thread. -/
theorem acknowledges_step {event : WorkerEvent} (hworkers : w.workers = some p)
    (h : Acknowledges p w.committed) (htransition : Transition w p event after) :
    ∀ q, after.workers = some q → Acknowledges q after.committed := by
  intro q hq
  cases htransition with
  | stay =>
      rw [hworkers] at hq
      rwa [← Option.some.inj hq]
  | formatted msg queries height hreceived hqueries =>
      obtain rfl := Option.some.inj hq
      refine ⟨fun other hother => ?_, h.received, h.ids, h.committed⟩
      rw [← QueryFmtThread.send.inj hother]
  | queriesSent msg hsend hrecv =>
      obtain rfl := Option.some.inj hq
      refine ⟨by simp, fun other hother => ?_, by simp, by simp⟩
      rw [← WriterThread.received.inj hother]
      exact h.send msg hsend
  | committed msg db hreceived hexecute =>
      obtain rfl := Option.some.inj hq
      refine ⟨h.send, by simp, fun other hother => ?_, fun other hother => ?_⟩
      · rw [← WriterThread.committed.inj hother]
        exact h.received msg hreceived
      · rw [← WriterThread.committed.inj hother]
        exact List.mem_append_right _ (List.mem_singleton_self _)
  | utxoSent | queryFmtDone | queryFmtDied =>
      obtain rfl := Option.some.inj hq
      exact ⟨by simp, h.received, h.ids, h.committed⟩
  | refused | acknowledged | anyMissing | writerDone | writerDied =>
      obtain rfl := Option.some.inj hq
      exact ⟨h.send, by simp, by simp, by simp⟩
  | utxoDone | utxoDied | blocksProcessed | chunkFetched | fetched =>
      obtain rfl := Option.some.inj hq
      exact ⟨h.send, h.received, h.ids, h.committed⟩

theorem clean_step (h : Clean w) (event : WorkerEvent) : Clean (w.step event) where
  bulk := by
    rw [Bulk, bulkMode_step]
    exact h.bulk
  txn := by
    rw [txn_step]
    exact h.txn
  acks := by
    cases hworkers : w.workers with
    | none =>
        rw [step_none hworkers]
        exact h.acks
    | some p => exact acknowledges_step hworkers (h.acks p hworkers) (transition_step hworkers event)

theorem tracked_step (hclean : Clean w) (h : Tracked block w) (event : WorkerEvent) :
    Tracked block (w.step event) := by
  obtain hflight | hcommitted := h
  · cases hworkers : w.workers with
    | none =>
        rw [step_none hworkers]
        exact .inl hflight
    | some p =>
        have hacks := hclean.acks p hworkers
        have hremoved : ∀ msg, p.writer = .committed msg → ∀ ids, ids = w.inFlight \ msg.blockIds →
            block.id ∈ ids ∨ Committed block w := by
          rintro msg hmsg _ rfl
          by_cases hid : block.id ∈ msg.blockIds
          · rw [hacks.ids msg hmsg, List.mem_toFinset] at hid
            exact .inr ⟨msg.batch, hacks.committed msg hmsg, hid⟩
          · exact .inl (Finset.mem_sdiff.2 ⟨hflight, hid⟩)
        have htransition := transition_step hworkers event
        generalize w.step event = after at htransition ⊢
        cases htransition with
        | acknowledged msg hcommitted hsubset => exact hremoved msg hcommitted _ rfl
        | anyMissing msg hcommitted hsubset => exact hremoved msg hcommitted _ rfl
        | _ => exact .inl hflight
  · exact .inr (committed_step hcommitted event)

/-! ## Accesses that do not write the state row -/

def Stateless : (γ : Type) → Act γ → Prop
  | _, .execute statement => KeepsState statement
  | _, .transExecute statement => KeepsState statement
  | _, _ => True

theorem allowsPlain_stateless : AllowsPlain Stateless := by
  intro γ access hplain
  cases access with
  | execute => exact absurd hplain id
  | transExecute => exact hplain
  | _ => trivial

theorem stateless_spawn (mode : Mode) (network : Network) :
    Stateless Unit (.spawn mode network) := trivial

theorem keepsState_setSchema (mode : Mode) : KeepsState (Db.setSchema mode) := by
  intro db after hok
  cases mode <;> simp only [Db.setSchema] at hok
  case freshBulk => rw [← Except.ok.inj hok]
  all_goals
    split_ifs at hok
    rw [← Except.ok.inj hok]

theorem clean_abort (h : Clean w) : Clean (abort w) := by
  cases htxn : w.txn with
  | none => simpa only [abort, htxn] using h
  | some transaction =>
      simp only [abort, htxn]
      exact ⟨h.bulk, by simp, h.acks⟩

theorem clean_transExecute {statement : Db → Except SqlError Db} (hkeeps : KeepsState statement)
    (fails : Bool) (h : Clean w) : Clean ((exec (.transExecute statement) fails w).after w) := by
  obtain heffect | ⟨before, written, htxn, hstatement, heffect⟩ := after_transExecute statement fails w
  · rw [heffect]
    exact clean_abort h
  · rw [heffect]
    refine ⟨h.bulk, fun transaction htransaction => ?_, h.acks⟩
    rw [← Option.some.inj htransaction, Bulk, hkeeps before written hstatement]
    exact h.txn before htxn

/-- An access to the database that is no query. -/
def Writes : Act γ → Bool
  | .execute _ => true
  | .transExecute _ => true
  | _ => false

/-- Beside statements only a commit writes to the database, which is what the transaction
says. -/
theorem clean_accessed {access : Act γ} (haccessed : Accessed w access after)
    (hwrites : Writes access = false) (h : Clean w) : Clean after := by
  cases haccessed with
  | stay | locked => exact ⟨h.bulk, h.txn, h.acks⟩
  | aborted => exact clean_abort h
  | executed | wrote => simp [Writes] at hwrites
  | handed batch p hworkers hrecv =>
      have hacks := h.acks p hworkers
      refine ⟨h.bulk, h.txn, fun q hq => ?_⟩
      rw [← Option.some.inj hq]
      exact ⟨hacks.send, hacks.received, hacks.ids, hacks.committed⟩
  | dropped =>
      refine ⟨h.bulk, h.txn, fun q hq => ?_⟩
      obtain ⟨p, hworkers, rfl⟩ := Option.map_eq_some_iff.1 hq
      have hacks := h.acks p hworkers
      exact ⟨hacks.send, hacks.received, hacks.ids, hacks.committed⟩
  | joined => exact ⟨h.bulk, h.txn, by simp⟩
  | spawned mode network =>
      refine ⟨h.bulk, h.txn, fun q hq => ?_⟩
      rw [← Option.some.inj hq]
      exact ⟨by simp [Workers.new], by simp [Workers.new], by simp [Workers.new],
        by simp [Workers.new]⟩
  | began =>
      refine ⟨h.bulk, fun transaction htxn => ?_, h.acks⟩
      rw [← Option.some.inj htxn]
      exact h.bulk
  | committed transaction htxn => exact ⟨h.txn transaction htxn, by simp, h.acks⟩

theorem clean_execute {statement : Db → Except SqlError Db} (hkeeps : KeepsState statement)
    (fails : Bool) (h : Clean w) : Clean ((exec (.execute statement) fails w).after w) := by
  cases fails with
  | true => exact h
  | false =>
      simp only [exec, execStatement]
      cases hstatement : statement w.db with
      | error e => exact h
      | ok written =>
          have hbulk : Bulk written := (hkeeps w.db written hstatement).trans h.bulk
          exact ⟨hbulk, h.txn, h.acks⟩

theorem clean_exec {access : Act γ} (hstateless : Stateless γ access) (fails : Bool)
    (h : Clean w) : Clean ((exec access fails w).after w) := by
  cases access with
  | execute statement => exact clean_execute hstateless fails h
  | transExecute statement => exact clean_transExecute hstateless fails h
  | _ => exact clean_accessed (accessed_exec _ fails w) rfl h

theorem tracked_exec (access : Act γ) (fails : Bool) (h : Tracked block w) :
    Tracked block ((exec access fails w).after w) := by
  have haccessed := accessed_exec access fails w
  generalize (exec access fails w).after w = after at haccessed
  cases haccessed with
  | locked ids => exact h.imp (Finset.mem_union_left _) id
  | aborted =>
      cases htxn : w.txn with
      | none => simpa only [abort, htxn] using h
      | some transaction =>
          simp only [abort, htxn]
          exact h
  | _ => exact h

theorem committed_exec (access : Act γ) (fails : Bool) (h : Committed block w) :
    Committed block ((exec access fails w).after w) := by
  have haccessed := accessed_exec access fails w
  generalize (exec access fails w).after w = after at haccessed
  cases haccessed with
  | aborted =>
      cases htxn : w.txn with
      | none => simpa only [abort, htxn] using h
      | some transaction =>
          simp only [abort, htxn]
          exact h
  | _ => exact h

/-! ## What may be seen -/

/-- The block at the head, where this call has been given it, has been committed. -/
def Reached (head : Option BlockData) (w : World) : Prop := ∃ block ∈ head, Committed block w

/-- The flag is set, or nothing has been stored yet, or the head has been reached. -/
def Shown (head : Option BlockData) (w : World) : Prop :=
  Bulk w.db ∨ (w.db.block = [] ∧ w.workers = none) ∨ Reached head w

/-- So it is between the calls. -/
def Settled (head : Option BlockData) (store : IndexerStore) (w : World) : Prop :=
  (Clean w ∧ store.mode.isBulk = true) ∨ Reached head w

variable {head : Option BlockData} {Q : α → IndexerStore → World → Prop} {prog : StoreM α}

abbrev Careful {α : Type} (head : Option BlockData) (Q : α → IndexerStore → World → Prop)
    (prog : StoreM α) (store : IndexerStore) (w : World) : Prop :=
  Safe system careful (Shown head) (fun _ _ => Shown head) Q prog store w

theorem Settled.shown (h : Settled head store w) : Shown head w :=
  h.imp (fun h => h.1.bulk) .inr

theorem stable_clean : careful.Stable system Clean := fun event _ _ h => clean_step h event

theorem stable_committed (block : BlockData) : careful.Stable system (Committed block) :=
  fun event _ _ h => committed_step h event

theorem stable_tracked (block : BlockData) :
    careful.Stable system fun w => Clean w ∧ Tracked block w :=
  fun event _ _ h => ⟨clean_step h.1 event, tracked_step h.1 h.2 event⟩

theorem stable_reached (head : Option BlockData) : careful.Stable system (Reached head) := by
  rintro event w _ ⟨block, hhead, hcommitted⟩
  exact ⟨block, hhead, committed_step hcommitted event⟩

theorem stable_shown (head : Option BlockData) : careful.Stable system (Shown head) := by
  intro event w hevent h
  obtain hbulk | ⟨hempty, hnone⟩ | hreached := h
  · exact .inl ((bulkMode_step w event).trans hbulk)
  · change Shown head (w.step event)
    rw [step_none hnone]
    exact .inr (.inl ⟨hempty, hnone⟩)
  · exact .inr (.inr (stable_reached head event w hevent hreached))

theorem stable_settled (head : Option BlockData) (store : IndexerStore) :
    careful.Stable system (Settled head store) := by
  intro event w hevent h
  exact h.imp (fun h => ⟨clean_step h.1 event, h.2⟩) (stable_reached head event w hevent)

theorem careful_of_ensures {Q : α → IndexerStore → Prop} (h : Ensures Stateless Q prog store)
    (hclean : Clean w) :
    Careful head (fun value after w => Q value after ∧ Clean w) prog store w :=
  h.safe stable_clean (fun _ h => .inl h.bulk) (fun _ _ _ h => .inl h.bulk)
    (fun _ fails _ hstateless h => clean_exec hstateless fails h) hclean

/-- Once the block is committed nothing matters. -/
theorem careful_of_committed (hhead : block ∈ head) {Q : α → IndexerStore → Prop}
    (h : Ensures (fun _ _ => True) Q prog store) (hcommitted : Committed block w) :
    Careful head (fun _ _ w => Committed block w) prog store w := by
  have hshown : ∀ w, Committed block w → Shown head w :=
    fun w h => .inr (.inr ⟨block, hhead, h⟩)
  have hsafe := h.safe (S := system) (stable_committed block) hshown (fun _ _ => hshown)
    (fun access fails _ _ h => committed_exec access fails h) hcommitted
  exact hsafe.mono fun _ _ _ h => h.2

/-! ## At the head -/

/-- What the pipeline and the batch of the caller hold. -/
structure Holding (block : BlockData) (store : IndexerStore) (w : World) : Prop where
  clean : Clean w
  running : Running w
  held : block ∈ store.batch ∨ Tracked block w

theorem stable_holding (block : BlockData) (store : IndexerStore) :
    careful.Stable system (Holding block store) :=
  fun event _ _ h => ⟨clean_step h.clean event, running_step h.running event,
    h.held.imp id fun htracked => tracked_step h.clean htracked event⟩

theorem holding_shown : Holding block store w → Shown head w := fun h => .inl h.clean.bulk

/-- A flushed batch is in flight before the workers have it. -/
theorem careful_flushBatch (h : Holding block store w) :
    Careful head (fun _ after w => Same store after ∧ Holding block after w ∧ Tracked block w)
      flushBatch store w := by
  simp only [flushBatch, Prog.bind_eq, Prog.read_bind, safe_loc]
  split_ifs with hempty
  · have hbatch : store.batch = [] := List.isEmpty_iff.1 hempty
    have htracked : Tracked block w := by
      apply h.held.resolve_left
      rw [hbatch]
      exact List.not_mem_nil
    exact ⟨.refl store, h, htracked⟩
  · simp only [Prog.modify_bind, Prog.perform_bind, safe_loc]
    apply Safe.act (stable_holding block store) (fun _ => holding_shown) _ h
    intro ready hready fails _
    have hlocked : Tracked block (lock (store.batch.map (·.id)) ready) := by
      obtain hbatch | hflight | hcommitted := hready.held
      · apply Or.inl
        rw [lock, Finset.mem_union, List.mem_toFinset]
        exact .inr (List.mem_map_of_mem hbatch)
      · exact .inl (Finset.mem_union_left _ hflight)
      · exact .inr hcommitted
    have hclean : Clean (lock (store.batch.map (·.id)) ready) :=
      ⟨hready.clean.bulk, hready.clean.txn, hready.clean.acks⟩
    apply Safe.act (stable_holding block { store with batch := [] }) (fun _ => holding_shown) _
      ⟨hclean, hready.running, .inr hlocked⟩
    intro sending hsending fails _
    have htracked : Tracked block sending := hsending.held.resolve_left List.not_mem_nil
    have hsent := tracked_exec (.send ⟨store.batchId, store.batch⟩) fails htracked
    have hstateless : Stateless Unit (.send ⟨store.batchId, store.batch⟩) := trivial
    have hkept := clean_exec hstateless fails hsending.clean
    simp only [system, systemOf_exec, exec, sendTo] at hsent hkept ⊢
    cases hworkers : sending.workers with
    | none => exact .inl hsending.clean.bulk
    | some p =>
        obtain ⟨q, hq, hopen⟩ := hsending.running
        obtain rfl : p = q := Option.some.inj (hworkers.symm.trans hq)
        simp only [hworkers] at hsent hkept ⊢
        cases hutxo : p.utxo with
        | recv =>
            simp only [hutxo] at hsent hkept
            exact ⟨⟨rfl, rfl, rfl⟩, ⟨hkept, ⟨_, rfl, hopen⟩, .inr hsent⟩, hsent⟩
        | exited => exact .inl hsending.clean.bulk
        | _ => trivial

/-- An access while the block is in flight or committed. -/
theorem careful_tracked_act {access : Act γ} {next : γ → StoreM α}
    (hstateless : Stateless γ access) (hclean : Clean w) (htracked : Tracked block w)
    (hnext : ∀ value w, Clean w → Tracked block w → Careful head Q (next value) store w) :
    Careful head Q (.act access next) store w := by
  apply Safe.act (stable_tracked block) (fun _ h => .inl h.1.bulk) _ ⟨hclean, htracked⟩
  intro ready hready fails _
  have hkept : Clean ((system.exec access fails ready).after ready) :=
    clean_exec hstateless fails hready.1
  have hstill : Tracked block ((system.exec access fails ready).after ready) :=
    tracked_exec access fails hready.2
  cases heffect : system.exec access fails ready with
  | blocked => trivial
  | done value after =>
      rw [heffect] at hkept hstill
      exact hnext value after hkept hstill
  | halted reason after =>
      rw [heffect] at hkept
      exact .inl hkept.bulk

/-- Nothing is in flight where the drop of the pipeline ends. -/
theorem careful_stopWorkers (hclean : Clean w) (htracked : Tracked block w) :
    Careful head (fun _ after w => after = store ∧ Committed block w) stopWorkers store w := by
  simp only [stopWorkers, Prog.bind_eq, Prog.perform_bind]
  apply careful_tracked_act (by trivial) hclean htracked
  intro _ dropped hclean htracked
  apply careful_tracked_act (by trivial) hclean htracked
  intro _ first hclean htracked
  apply careful_tracked_act (by trivial) hclean htracked
  intro _ second hclean htracked
  apply careful_tracked_act (by trivial) hclean htracked
  intro _ third hclean htracked
  apply Safe.act (stable_tracked block) (fun _ h => .inl h.1.bulk) _ ⟨hclean, htracked⟩
  intro stopped hstopped fails _
  simp only [system, systemOf_exec, exec]
  split_ifs with hempty
  · refine ⟨rfl, hstopped.2.resolve_left ?_⟩
    rw [hempty]
    exact Finset.notMem_empty _
  · exact .inl hstopped.1.bulk

/-- Either look at `in_flight` finds the block committed. -/
theorem careful_flushWorkers (hhead : block ∈ head) (h : Holding block store w) :
    Careful head (fun _ _ w => Committed block w) flushWorkers store w := by
  simp only [flushWorkers, Prog.bind_eq, Prog.perform_bind]
  apply Safe.act (stable_holding block store) (fun _ => holding_shown) _ h
  intro ready hready fails _
  have hrunning : ready.workers.any (·.txOpen) = true :=
    (Option.any_eq_true _ _).2 hready.running
  simp only [system, systemOf_exec, exec, hrunning, Bool.not_true, Bool.false_eq_true, if_false]
  apply Safe.bind _ (careful_flushBatch hready)
  rintro _ flushed sent ⟨-, hholding, htracked⟩
  apply Safe.act (stable_tracked block) (fun _ h => .inl h.1.bulk) _ ⟨hholding.clean, htracked⟩
  intro looked hlooked fails _
  simp only [system, systemOf_exec, exec]
  by_cases hempty : looked.inFlight = ∅
  · simp only [hempty, decide_true, if_true]
    apply hlooked.2.resolve_left
    rw [hempty]
    exact Finset.notMem_empty _
  · simp only [hempty, decide_false, Bool.false_eq_true, if_false, flushWorkersUnconditionally,
      Prog.bind_eq]
    apply Safe.bind _ (careful_stopWorkers hlooked.1 hlooked.2)
    rintro _ restarted stopped ⟨-, hcommitted⟩
    have hstart : Ensures (fun _ _ => True) (fun _ _ => True) startWorkers restarted :=
      ⟨trivial, fun _ => trivial⟩
    exact careful_of_committed hhead hstart hcommitted

theorem careful_switch (hhead : block ∈ head) (h : Holding block store w)
    (hbulk : store.mode.isBulk = true) :
    Careful head (fun _ _ w => Committed block w) (setMode .normal) store w := by
  simp only [setMode, Prog.bind_eq, Prog.read_bind, safe_loc]
  split_ifs with hmode
  · rw [hmode] at hbulk
    exact absurd hbulk (by simp [Mode.isBulk])
  · simp only [setModeUncodintionally, Prog.bind_eq, Prog.modify_bind, safe_loc]
    have hholding : Holding block { store with mode := .normal } w :=
      ⟨h.clean, h.running, h.held⟩
    apply Safe.bind _ (careful_flushWorkers hhead hholding)
    intro _ flushed flushedAt hcommitted
    have hrest : Ensures (fun _ _ => True) (fun _ _ => True) ((setSchemaToMode .normal).bind
        fun _ => perform (.execute (updateBulkMode .normal))) flushed :=
      ⟨trivial, fun _ => ⟨trivial, fun _ => trivial⟩⟩
    exact careful_of_committed hhead hrest hcommitted

/-! ## The calls -/

/-- The block of this call, where it is the head of the node's chain. -/
def headOf (store : IndexerStore) (block : BlockData) : Option BlockData :=
  if store.nodeChainHeadHeight = block.height then some block else none

theorem headOf_same {after : IndexerStore} (hsame : Same store after) :
    headOf after block = headOf store block := by
  rw [headOf, headOf, hsame.nodeChainHeadHeight]

/-- A part that leaves the mode alone. -/
theorem careful_of_mode (h : Ensures Stateless (fun _ after => after.mode = store.mode) prog store)
    (hclean : Clean w) (hbulk : store.mode.isBulk = true) :
    Careful head (fun _ after w => Settled head after w) prog store w := by
  apply (careful_of_ensures h hclean).mono
  rintro _ after w ⟨hmode, hclean⟩
  exact .inl ⟨hclean, hmode ▸ hbulk⟩

/-- What follows a part that leaves the mode, the count and the head alone. -/
theorem careful_then {β : Type} {rest : α → StoreM β} {first : IndexerStore}
    {Q : β → IndexerStore → World → Prop} (hfirst : Same store first) (h : Keeps Stateless prog)
    (hclean : Clean w)
    (hrest : ∀ a middle w, Same store middle → Clean w → Careful head Q (rest a) middle w) :
    Careful head Q (prog.bind rest) first w := by
  apply Safe.bind _ (careful_of_ensures (h first) hclean)
  exact fun a middle w hmiddle => hrest a middle w (hfirst.trans hmiddle.1) hmiddle.2

theorem careful_insertExtending (hclean : Clean w) (hrunning : Running w)
    (hbulk : store.mode.isBulk = true) :
    Careful (headOf store block) (fun _ after w => Settled (headOf store block) after w)
      (insertExtending block) store w := by
  simp only [insertExtending, Prog.bind_eq, Prog.read_bind, Prog.modify_bind, safe_loc]
  have hpushed : Holding block (store.push block) w :=
    ⟨hclean, hrunning, .inl (List.mem_append_right _ (List.mem_singleton_self _))⟩
  have hflush : Careful (headOf store block)
      (fun _ after w => Same (store.push block) after ∧ Holding block after w)
      (whenever (!(store.push block).mode.isBulk ||
        decide ((store.push block).batchTxsTotal > 100000)) flushBatch) (store.push block) w := by
    cases !(store.push block).mode.isBulk || decide ((store.push block).batchTxsTotal > 100000) with
    | false => exact ⟨.refl _, hpushed⟩
    | true => exact (careful_flushBatch hpushed).mono fun _ _ _ h => ⟨h.1, h.2.1⟩
  apply Safe.bind _ hflush
  rintro _ flushed sent ⟨hsame, hholding⟩
  have hmode : flushed.mode.isBulk = true := by
    rw [hsame.mode]
    exact hbulk
  by_cases hhead : (store.push block).nodeChainHeadHeight = block.height
  · rw [decide_eq_true hhead, whenever_true]
    have hmem : block ∈ headOf store block := by
      have hheight : store.nodeChainHeadHeight = block.height := hhead
      rw [headOf, if_pos hheight]
      rfl
    apply (careful_switch hmem hholding hmode).mono
    exact fun _ after w hcommitted => .inr ⟨block, hmem, hcommitted⟩
  · rw [decide_eq_false hhead, whenever_false]
    exact .inl ⟨hholding.clean, hmode⟩

theorem careful_insertWhenAtTip (hclean : Clean w) (hbulk : store.mode.isBulk = true) :
    Careful (headOf store block) (fun _ after w => Settled (headOf store block) after w)
      (insertWhenAtTip block) store w := by
  have hB := allowsPlain_stateless
  simp only [insertWhenAtTip, Prog.bind_eq, Prog.read_bind, safe_loc]
  apply careful_then (.refl store) (Keeps.assertThat _ _) hclean
  intro _ first w hfirst hclean
  apply Safe.act stable_clean (fun _ h => .inl h.bulk) _ hclean
  intro asked hasked fails _
  simp only [system, systemOf_exec, exec]
  -- the assertion holds the answer to `are_workers_stopped`
  cases hrunning : asked.workers.any (·.txOpen) with
  | false => exact .inl hasked.bulk
  | true =>
      simp only [Bool.not_true, Bool.not_false, assertThat_true, Prog.pure_bind]
      cases decide (block.height ≤ store.chainBlockCount) with
      | false => exact .inl hasked.bulk
      | true =>
          have hmode : first.mode.isBulk = true := hfirst.mode ▸ hbulk
          simp only [assertThat_true, Prog.pure_bind]
          rw [← headOf_same hfirst]
          split_ifs
          · apply careful_of_mode _ hasked hmode
            apply (ensures_insertBelowTip hB.simple (stateless_spawn _) trivial block).mono
            exact fun _ after hafter => hafter.mode
          · exact careful_insertExtending hasked ((Option.any_eq_true _ _).1 hrunning) hmode

theorem careful_insert (hclean : Clean w) (hbulk : store.mode.isBulk = true) :
    Careful (headOf store block) (fun _ after w => Settled (headOf store block) after w)
      (Store.insert block) store w := by
  have hB := allowsPlain_stateless
  simp only [Store.insert, Prog.bind_eq, Prog.read_bind, safe_loc]
  split_ifs
  · apply careful_of_mode _ hclean hbulk
    apply ensures_insertWhenInReorg hB.simple
    · intro ready hready _
      apply (ensures_finishReorg hB (stateless_spawn _)).mono
      exact fun _ after hafter => hafter.1.trans hready.mode
    · exact fun after hafter => hafter.mode
  · exact careful_insertWhenAtTip hclean hbulk

theorem careful_getHashByHeight (hclean : Clean w) (hbulk : store.mode.isBulk = true)
    (height : BlockHeight) :
    Careful head (fun _ after w => Settled head after w) (getHashByHeight height) store w := by
  apply careful_of_mode _ hclean hbulk
  apply (ensures_getHashByHeight allowsPlain_stateless.simple (stateless_spawn _) trivial height).mono
  exact fun _ after hafter => hafter.mode

/-! ## Opening -/

/-- Nobody but the caller is there, and nothing is open. -/
structure Alone (holds : Db → Prop) (w : World) : Prop where
  workers : w.workers = none
  txn : w.txn = none
  holds : holds w.db

theorem stable_alone (holds : Db → Prop) : careful.Stable system (Alone holds) := by
  intro event w _ h
  change Alone holds (w.step event)
  rwa [step_none h.workers]

theorem Alone.clean (h : Alone Bulk w) : Clean w where
  bulk := h.holds
  txn := by simp [h.txn]
  acks := by simp [h.workers]

/-- Nothing is stored, and the state row is there. -/
def Testing (db : Db) : Prop := db.block = [] ∧ db.bulkMode.isSome = true

/-- What a process finds that does not start from within a self test. -/
def Findable (db : Db) : Prop := Bulk db ∨ (db.block = [] ∧ db.bulkMode ≠ some false)

theorem Alone.shown_testing (h : Alone Testing w) : Shown head w := .inr (.inl ⟨h.holds.1, h.workers⟩)

theorem Alone.shown (h : Alone Findable w) : Shown head w :=
  h.holds.imp id fun hempty => .inl ⟨hempty.1, h.workers⟩

theorem setSchema_block (mode : Mode) {db after : Db} (hempty : db.block = [])
    (hok : db.setSchema mode = .ok after) : after.block = [] := by
  cases mode <;> simp only [Db.setSchema] at hok
  case freshBulk =>
    rw [← Except.ok.inj hok]
    rfl
  all_goals
    split_ifs at hok
    rw [← Except.ok.inj hok]
    exact hempty

/-- There is nobody to flush. -/
theorem careful_setMode_testing (h : Alone Testing w) (mode : Mode) :
    Careful head (fun _ after w => after.mode = mode ∧
      Alone (fun db => db.block = [] ∧ db.bulkMode = some mode.isBulk) w)
      (setModeUncodintionally mode) store w := by
  simp only [setModeUncodintionally, flushWorkers, Prog.bind_eq, Prog.modify_bind, safe_loc,
    Prog.perform_bind, Prog.act_bind]
  apply Safe.act (stable_alone Testing) (fun _ h => h.shown_testing) _ h
  intro asked hasked fails _
  simp only [system, systemOf_exec, exec, hasked.workers, Option.any_none, Bool.not_false, if_true,
    Prog.pure_eq, Prog.pure_bind]
  apply Safe.act (stable_alone Testing) (fun _ h => h.shown_testing) _ hasked
  intro created hcreated fails _
  cases fails with
  | true => exact hcreated.shown_testing
  | false =>
      simp only [system, systemOf_exec, exec, execStatement]
      cases hschema : created.db.setSchema mode with
      | error e => exact hcreated.shown_testing
      | ok db =>
          have htesting : Testing db := by
            refine ⟨setSchema_block mode hcreated.holds.1 hschema, ?_⟩
            rw [keepsState_setSchema mode created.db db hschema]
            exact hcreated.holds.2
          have hpublished : Alone Testing (created.publish db) :=
            ⟨hcreated.workers, hcreated.txn, htesting⟩
          apply Safe.act (stable_alone Testing) (fun _ h => h.shown_testing) _ hpublished
          intro updating hupdating fails _
          cases fails with
          | true => exact hupdating.shown_testing
          | false =>
              refine ⟨rfl, hupdating.workers, hupdating.txn, hupdating.holds.1, ?_⟩
              obtain ⟨flag, hflag⟩ := Option.isSome_iff_exists.1 hupdating.holds.2
              change updating.db.bulkMode.map (fun _ => mode.isBulk) = some mode.isBulk
              rw [hflag, Option.map_some]

/-- Only the last of the five updates is one that others see the end of. -/
theorem careful_selfTest (h : Alone Testing w) :
    Careful head (fun _ after w => after.mode.isBulk = true ∧ Alone Bulk w) selfTest store w := by
  have hset : ∀ {rest : Unit → StoreM Unit} (mode : Mode) {first : IndexerStore} {w : World},
      Alone Testing w → (∀ second w, Alone Testing w →
        Careful head (fun _ after w => after.mode.isBulk = true ∧ Alone Bulk w) (rest ()) second w) →
      Careful head (fun _ after w => after.mode.isBulk = true ∧ Alone Bulk w)
        ((setModeUncodintionally mode).bind rest) first w := by
    intro rest mode first w hw hrest
    apply Safe.bind _ (careful_setMode_testing hw mode)
    rintro _ second w ⟨-, hset⟩
    exact hrest second w ⟨hset.workers, hset.txn, hset.holds.1, by simp [hset.holds.2]⟩
  simp only [selfTest, Prog.bind_eq, Prog.read_bind, safe_loc]
  cases decide (store.mode = .freshBulk) with
  | false => exact h.shown_testing
  | true =>
      apply hset .freshBulk h
      intro _ w hw
      apply hset .bulk hw
      intro _ w hw
      apply hset .normal hw
      intro _ w hw
      apply hset .bulk hw
      intro _ w hw
      apply (careful_setMode_testing hw .freshBulk).mono
      rintro _ after w ⟨hmode, hset⟩
      rw [hmode]
      exact ⟨rfl, hset.workers, hset.txn, hset.holds.2⟩

/-- What the mode says that a process starts in. -/
def Starting (mode : Mode) (db : Db) : Prop :=
  Bulk db ∧ mode.isBulk = true ∧ (mode = .freshBulk → db.block = [])

theorem careful_readIndexerState (h : Alone Findable w) :
    Careful head (fun mode after w => after = store ∧ Alone (Starting mode) w) readIndexerState
      store w := by
  simp only [readIndexerState, Prog.bind_eq, Prog.perform_bind]
  apply Safe.act (stable_alone Findable) (fun _ h => h.shown) _ h
  intro ready hready fails _
  cases fails with
  | true => exact hready.shown
  | false =>
      simp only [system, systemOf_exec, exec, execSelect, indexerStateMode]
      cases hflag : ready.db.bulkMode with
      | none =>
          have hempty : ready.db.block = [] := by
            obtain hbulk | hempty := hready.holds
            · rw [Bulk, hflag] at hbulk
              exact absurd hbulk (by simp)
            · exact hempty.1
          simp only [Option.map_none]
          apply Safe.act (stable_alone fun db => db.block = []) _ _
            ⟨hready.workers, hready.txn, hempty⟩
          · exact fun _ h => .inr (.inl ⟨h.holds, h.workers⟩)
          · intro written hwritten fails _
            cases fails with
            | true => exact .inr (.inl ⟨hwritten.holds, hwritten.workers⟩)
            | false => exact ⟨rfl, hwritten.workers, hwritten.txn, rfl, rfl, fun _ => hwritten.holds⟩
      | some bulk =>
          have hbulk : bulk = true := by
            obtain hset | ⟨-, hnot⟩ := hready.holds
            · rwa [Bulk, hflag, Option.some.injEq] at hset
            · cases bulk with
              | true => rfl
              | false => exact absurd hflag hnot
          subst hbulk
          simp only [Option.map_some, if_true]
          refine ⟨rfl, hready.workers, hready.txn, hflag, ?_, ?_⟩
          · split_ifs <;> rfl
          · intro hfresh
            split_ifs at hfresh with hlength
            exact List.length_eq_zero_iff.1 hlength

theorem careful_new (nodeChainHeadHeight : BlockHeight) (network : Network)
    (h : Alone Findable w) :
    Careful head (fun _ after w => Settled head after w) (new nodeChainHeadHeight network) store
      w := by
  simp only [new, Prog.bind_eq, Prog.perform_bind, Prog.modify_bind, Prog.read_bind]
  apply Safe.act (stable_alone Findable) (fun _ h => h.shown) _ h
  intro created hcreated fails _
  cases fails with
  | true => exact hcreated.shown
  | false =>
      have hpublished : Alone Findable (created.publish created.db) :=
        ⟨hcreated.workers, hcreated.txn, hcreated.holds⟩
      apply Safe.bind _ (careful_readIndexerState hpublished)
      rintro mode _ read ⟨rfl, hread⟩
      have hstart : ∀ w, Alone (Starting mode) w → Shown head w := fun _ h => .inl h.holds.1
      apply Safe.act (stable_alone _) hstart _ hread
      intro counted hcounted fails _
      cases fails with
      | true => exact hstart counted hcounted
      | false =>
          apply Safe.act (stable_alone _) hstart _ hcounted
          intro current hcurrent fails _
          cases fails with
          | true => exact hstart current hcurrent
          | false =>
              simp only [system, systemOf_exec, exec, execSelect]
              cases decide (counted.db.readDbChainBlockCount =
                  current.db.readDbChainCurrentBlockCount) with
              | false => exact hstart current hcurrent
              | true =>
                  simp only [assertThat_true, Prog.pure_bind, safe_loc]
                  have htested : Careful head
                      (fun _ after w => after.mode.isBulk = true ∧ Alone Bulk w)
                      (whenever (decide (mode = .freshBulk)) selfTest)
                      (.opened mode network nodeChainHeadHeight counted.db.readDbChainBlockCount)
                      current := by
                    by_cases hmode : mode = .freshBulk
                    · rw [decide_eq_true hmode, whenever_true]
                      have hflag : current.db.bulkMode.isSome = true := by
                        rw [show current.db.bulkMode = some true from hcurrent.holds.1]
                        rfl
                      exact careful_selfTest ⟨hcurrent.workers, hcurrent.txn,
                        hcurrent.holds.2.2 hmode, hflag⟩
                    · rw [decide_eq_false hmode, whenever_false]
                      exact ⟨hcurrent.holds.2.1, hcurrent.workers, hcurrent.txn, hcurrent.holds.1⟩
                  apply Safe.bind _ htested
                  rintro _ tested w ⟨hbulk, halone⟩
                  rw [safe_loc]
                  have hrest : Ensures Stateless (fun _ after => after.mode = tested.mode)
                      ((setSchemaToMode tested.mode).bind fun _ => startWorkers) tested :=
                    ⟨keepsState_setSchema _, fun _ => ⟨trivial, fun _ => rfl⟩⟩
                  exact careful_of_mode hrest halone.clean hbulk

/-! ## Runs -/

def IsCall (label : StoreLabel) : Prop := ∃ call, label = .call call

/-- The latest call of the run has been given the block at the head that its process knows. -/
def GivesHead (labels : List StoreLabel) (block : BlockData) : Prop :=
  ∃ before during, labels = before ++ .call (.insert block) :: during ∧
    (∀ label ∈ during, ¬ IsCall label) ∧ (system.run before initial).prog = .pure () ∧
    (system.run before initial).locals.nodeChainHeadHeight = block.height

/-- Some process was given the block at its head, and its writer committed it within that
call. -/
def HeadInserted (labels : List StoreLabel) : Prop :=
  ∃ first, first <+: labels ∧
    ∃ block, GivesHead first block ∧ Committed block (system.run first initial).shared

theorem HeadInserted.append {labels : List StoreLabel} (h : HeadInserted labels)
    (label : StoreLabel) : HeadInserted (labels ++ [label]) := by
  obtain ⟨first, hinitial, hblock⟩ := h
  exact ⟨first, hinitial.trans (List.prefix_append labels [label]), hblock⟩

theorem GivesHead.append {labels : List StoreLabel} {label : StoreLabel}
    (h : GivesHead labels block) (hlabel : ¬ IsCall label) : GivesHead (labels ++ [label]) block := by
  obtain ⟨before, during, rfl, hduring, hstart⟩ := h
  refine ⟨before, during ++ [label], by simp, ?_, hstart⟩
  intro other hmem
  rw [List.mem_append, List.mem_singleton] at hmem
  obtain hmem | rfl := hmem
  · exact hduring other hmem
  · exact hlabel

abbrev SafeStore (head : Option BlockData) (c : StoreConfig) : Prop :=
  SafeConfig system careful (Shown head) (fun _ _ => Shown head) (Settled head) c

/-- The head has been inserted, or the current call is safe and knows whether it is at the
head. -/
def Accounted (labels : List StoreLabel) : Prop :=
  HeadInserted labels ∨ ∃ head, (∀ block ∈ head, GivesHead labels block) ∧
    SafeStore head (system.run labels initial)

theorem SafeStore.shown {c : StoreConfig} (h : SafeStore head c) : Shown head c.shared :=
  SafeConfig.always (I := Shown head) (fun _ _ h => Settled.shown h) (fun _ _ _ h => h) h

theorem headInserted_of_reached {labels : List StoreLabel}
    (hhead : ∀ block ∈ head, GivesHead labels block)
    (h : Reached head (system.run labels initial).shared) : HeadInserted labels := by
  obtain ⟨block, hmem, hcommitted⟩ := h
  exact ⟨labels, List.prefix_rfl, block, hhead block hmem, hcommitted⟩

/-- What a new process finds. -/
theorem alone_restart (resume : ℕ) (h : Findable w.db) : Alone Findable (restart resume w) := by
  have hdb : (restart resume w).db.block = w.db.block ∧
      (restart resume w).db.bulkMode = w.db.bulkMode ∧ (restart resume w).txn = none := by
    cases htxn : w.txn <;> simp [restart, abort, htxn, Db.rollback]
  refine ⟨rfl, hdb.2.2, ?_⟩
  rw [Findable, Bulk, hdb.1, hdb.2.1]
  exact h

/-- One step, whichever it is. -/
theorem accounted_append {labels : List StoreLabel} {label : StoreLabel} (h : Accounted labels)
    (hadmits : careful.admits label (system.run labels initial)) :
    Accounted (labels ++ [label]) := by
  obtain hinserted | ⟨head, hhead, hsafe⟩ := h
  · exact .inl (hinserted.append label)
  have hrun : system.run (labels ++ [label]) initial =
      system.next label (system.run labels initial) := system.run_append labels [label] initial
  have hnone : ∀ block ∈ (none : Option BlockData), GivesHead (labels ++ [label]) block := by
    simp
  cases label with
  | step fails =>
      have hkept : ∀ block ∈ head, GivesHead (labels ++ [.step fails]) block :=
        fun block hmem => (hhead block hmem).append (by simp [IsCall])
      refine .inr ⟨head, hkept, ?_⟩
      rw [hrun]
      exact hsafe.advance hadmits
  | other event =>
      have hkept : ∀ block ∈ head, GivesHead (labels ++ [.other event]) block :=
        fun block hmem => (hhead block hmem).append (by simp [IsCall])
      refine .inr ⟨head, hkept, ?_⟩
      rw [hrun]
      exact Safe.interfere (fun _ => stable_settled head) (fun _ _ => stable_shown head) _ event _
        hadmits hsafe
  | call call =>
      -- a call that follows a commit of the head block finds it in the history
      have hreached : Reached head (system.run labels initial).shared →
          Accounted (labels ++ [.call call]) :=
        fun hreached => .inl ((headInserted_of_reached hhead hreached).append _)
      cases call with
      | start nodeChainHeadHeight network resume =>
          have hcareful : ¬ InSelfTest (system.run labels initial).shared.db := hadmits
          obtain hbulk | ⟨hempty, -⟩ | hreached' := hsafe.shown
          · refine .inr ⟨none, hnone, ?_⟩
            rw [hrun]
            exact (safe_settle _ _ _).2 (careful_new _ _ (alone_restart resume (.inl hbulk)))
          · refine .inr ⟨none, hnone, ?_⟩
            rw [hrun]
            have hfindable : Findable (system.run labels initial).shared.db :=
              .inr ⟨hempty, fun hflag => hcareful ⟨hflag, hempty⟩⟩
            exact (safe_settle _ _ _).2 (careful_new _ _ (alone_restart resume hfindable))
          · exact hreached hreached'
      | insert block =>
          have hreturned : (system.run labels initial).prog = .pure () := hadmits
          rw [SafeStore, SafeConfig, hreturned, safe_pure] at hsafe
          obtain ⟨hclean, hbulk⟩ | hreached' := hsafe
          · refine .inr ⟨headOf (system.run labels initial).locals block, ?_, ?_⟩
            · intro other hmem
              rw [headOf] at hmem
              split_ifs at hmem with hheight
              · obtain rfl := Option.some.inj hmem
                exact ⟨labels, [], rfl, by simp, hreturned, hheight⟩
              · exact absurd hmem (by simp)
            · rw [hrun]
              have hentered : Clean (enter (.insert block) (system.run labels initial).shared) :=
                ⟨hclean.bulk, hclean.txn, hclean.acks⟩
              exact (safe_settle _ _ _).2 (careful_insert hentered hbulk)
          · exact hreached hreached'
      | getHashByHeight height =>
          have hreturned : (system.run labels initial).prog = .pure () := hadmits
          rw [SafeStore, SafeConfig, hreturned, safe_pure] at hsafe
          obtain ⟨hclean, hbulk⟩ | hreached' := hsafe
          · refine .inr ⟨none, hnone, ?_⟩
            rw [hrun]
            apply (safe_settle _ _ _).2
            apply Safe.bind _ (careful_getHashByHeight hclean hbulk height)
            exact fun _ _ _ h => h
          · exact hreached hreached'

theorem accounted {labels : List StoreLabel} (hfollows : careful.follows system labels initial) :
    Accounted labels := by
  induction labels using List.reverseRecOn with
  | nil => exact .inr ⟨none, by simp, .inr (.inl ⟨rfl, rfl⟩)⟩
  | append_singleton labels label ih =>
      obtain ⟨hlabels, hlabel⟩ := (careful.follows_append system labels [label] initial).1 hfollows
      exact accounted_append (ih hlabels) hlabel.1

/-! ## What a process makes of the flag -/

/-- As long as nobody turns the flag off. -/
def unfinished : Discipline Mempool.Act Mempool.MempoolStore Mempool.Halt Mempool.World
    Mempool.Event Mempool.Call where
  event := fun event w => (w.step event).db.bulkMode ≠ some false
  access := fun _ _ _ => True
  call := fun _ _ => True

theorem isBulk_of_state {mode : Mode} (hflag : db.bulkMode ≠ some false)
    (hmode : indexerStateMode db = some mode) : mode.isBulk = true := by
  obtain ⟨bulk, hbulk, rfl⟩ := Option.map_eq_some_iff.1 hmode
  cases bulk with
  | false => exact absurd hbulk hflag
  | true =>
      simp only [if_true]
      split_ifs <;> rfl

theorem resumes_bulk {mode : Mode} {store' : IndexerStore} (hflag : w.db.bulkMode ≠ some false)
    (hreturns : Returns system careful readIndexerState store w mode store' after) :
    mode.isBulk = true := by
  have hstable : careful.Stable system fun w => w.db.bulkMode ≠ some false := by
    intro event w _ h
    change (w.step event).db.bulkMode ≠ some false
    rwa [bulkMode_step]
  have hsafe : Safe system careful (fun _ => True) (fun _ _ _ => True)
      (fun mode _ _ => mode.isBulk = true) readIndexerState store w := by
    simp only [readIndexerState, Prog.bind_eq, Prog.perform_bind]
    apply Safe.act hstable (fun _ _ => trivial) _ hflag
    intro ready hready fails _
    cases fails with
    | true => trivial
    | false =>
        simp only [system, systemOf_exec, exec, execSelect]
        cases hmode : indexerStateMode ready.db with
        | some mode => exact isBulk_of_state hready hmode
        | none =>
            apply Safe.act hstable (fun _ _ => trivial) _ hready
            intro written _ fails _
            cases fails with
            | true => trivial
            | false => rfl
  exact hsafe.returns hreturns

/-- `MempoolStore::new` ends with its `bail!`, or earlier. -/
theorem mempool_refuses {network : Network} {before store' : Mempool.MempoolStore}
    {w after : Mempool.World} (hflag : w.db.bulkMode ≠ some false) :
    ¬ Returns Mempool.system unfinished (Mempool.new network) before w () store' after := by
  intro hreturns
  have hstable : unfinished.Stable Mempool.system fun w => w.db.bulkMode ≠ some false :=
    fun _ _ hevent _ => hevent
  have hsafe : Safe Mempool.system unfinished (fun _ => True) (fun _ _ _ => True)
      (fun _ _ _ => False) (Mempool.new network) before w := by
    simp only [Mempool.new, Mempool.readIndexerState, Prog.bind_eq, Prog.perform_bind]
    apply Safe.act hstable (fun _ _ => trivial) _ hflag
    intro created hcreated fails _
    cases fails with
    | true => trivial
    | false =>
        have hkept : { created with db := created.db }.db.bulkMode ≠ some false := hcreated
        apply Safe.act hstable (fun _ _ => trivial) _ hkept
        intro ready hready fails _
        cases fails with
        | true => trivial
        | false =>
            simp only [Mempool.system, Mempool.exec, Mempool.orHalt]
            cases hmode : indexerStateMode ready.db with
            | some mode =>
                simp only [Prog.pure_eq, Prog.pure_bind, isBulk_of_state hready hmode, if_true]
                trivial
            | none =>
                apply Safe.act hstable (fun _ _ => trivial) _ hready
                intro written _ fails _
                cases fails <;> trivial
  exact hsafe.returns hreturns

/-! ## The flag and the head -/

/-- Where no process starts within a self test and nobody looks there, the flag is off only
after the block at the head of the node's chain was inserted; before that every new process
resumes in a bulk mode, and none stores the mempool. -/
theorem off_only_after_head (labels : List StoreLabel)
    (hfollows : careful.follows system labels initial) :
    let c := system.run labels initial
    ¬ InSelfTest c.shared.db →
      (c.shared.db.bulkMode = some false → HeadInserted labels) ∧
      (¬ HeadInserted labels →
        (∀ resume mode store store' after,
          Returns system careful readIndexerState store (restart resume c.shared) mode store' after →
            mode.isBulk = true) ∧
        ∀ network before store' w after, w.db = c.shared.db →
          ¬ Returns Mempool.system unfinished (Mempool.new network) before w () store' after) := by
  intro c houtside
  have hoff : c.shared.db.bulkMode = some false → HeadInserted labels := by
    intro hflag
    obtain hinserted | ⟨head, hhead, hsafe⟩ := accounted hfollows
    · exact hinserted
    · obtain hbulk | ⟨hempty, -⟩ | hreached := hsafe.shown
      · rw [Bulk, hflag] at hbulk
        exact absurd hbulk (by simp)
      · exact absurd ⟨hflag, hempty⟩ houtside
      · exact headInserted_of_reached hhead hreached
  refine ⟨hoff, fun hnot => ?_⟩
  have hflag : c.shared.db.bulkMode ≠ some false := fun hflag => hnot (hoff hflag)
  constructor
  · intro resume mode store store' after
    apply resumes_bulk
    have hdb : (restart resume c.shared).db.bulkMode = c.shared.db.bulkMode := by
      cases htxn : c.shared.txn <;> simp [restart, abort, htxn, Db.rollback]
    rwa [hdb]
  · intro network before store' w after hdb
    apply mempool_refuses
    rwa [hdb]

/-! ## The first block, and a death in the self test -/

instance (db : Db) : Decidable (InSelfTest db) := by
  unfold InSelfTest
  infer_instance

def checkCareful : StoreLabel → StoreConfig → Bool
  | .call (.start _ _ _), c => !decide (InSelfTest c.shared.db)
  | label, c => checkAnswered label c

theorem careful_of_check (label : StoreLabel) (c : StoreConfig) (h : checkCareful label c = true) :
    careful.admits label c := by
  cases label with
  | step fails => exact fun _ _ _ => trivial
  | other event => trivial
  | call call =>
      cases call with
      | start nodeChainHeadHeight network resume =>
          rw [checkCareful, Bool.not_eq_true', decide_eq_false_iff_not] at h
          exact h
      | insert block => exact answered_of_check (.call (.insert block)) c h
      | getHashByHeight height => exact answered_of_check (.call (.getHashByHeight height)) c h

theorem first_block_turns_off :
    (system.run RunningMode.patient initial).shared.db.bulkMode = some false ∧
      HeadInserted RunningMode.patient := by
  have hfollows : careful.follows system RunningMode.patient initial :=
    follows_of_checkRun careful_of_check RunningMode.patient initial (by decide +kernel)
  have houtside : ¬ InSelfTest (system.run RunningMode.patient initial).shared.db := by
    decide +kernel
  have hflag : (system.run RunningMode.patient initial).shared.db.bulkMode = some false := by
    decide +kernel
  exact ⟨hflag, (off_only_after_head RunningMode.patient hfollows houtside).1 hflag⟩

/-- The process dies after the third update of its self test, and a new one starts. -/
@[irreducible]
def deathInSelfTest : List StoreLabel :=
  .call (.start 5 .bitcoin 0) :: List.replicate 14 (.step false) ++
    .call (.start 5 .bitcoin 0) :: List.replicate 6 (.step false)

example : returned (system.run deathInSelfTest initial).prog = true ∧
    (system.run deathInSelfTest initial).locals.mode = .normal ∧
      (system.run deathInSelfTest initial).shared.db.block = [] := by
  decide +kernel

/-- The new process is in normal mode over an empty chain. -/
theorem self_test_leaves_normal :
    ¬ ∀ labels : List StoreLabel, answered.follows system labels initial →
      (system.run labels initial).shared.db.bulkMode = some false → HeadInserted labels := by
  intro h
  have hcalls : ∀ block, .call (.insert block) ∉ deathInSelfTest := by
    intro block hmem
    simp [deathInSelfTest] at hmem
  have hfollows : answered.follows system deathInSelfTest initial :=
    follows_of_checkRun answered_of_check deathInSelfTest initial (by decide +kernel)
  have hflag : (system.run deathInSelfTest initial).shared.db.bulkMode = some false := by
    decide +kernel
  obtain ⟨first, hinitial, block, ⟨before, during, rfl, -⟩, -⟩ := h deathInSelfTest hfollows hflag
  exact hcalls block (hinitial.subset (by simp))

end BitcoinIndexer.PersistedMode
