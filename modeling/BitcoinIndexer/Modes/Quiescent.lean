import BitcoinIndexer.Modes.PersistedMode

/-!
# Calls that store nothing

Opening the store over a chain and asking for a hash write the schema and the state row at
most; the workers that are started have nothing to do.
-/

namespace BitcoinIndexer.Quiescent

open BitcoinIndexer.Types
open BitcoinIndexer.Tables
open BitcoinIndexer.Worker
open BitcoinIndexer.Store
open BitcoinIndexer.Pipeline
open BitcoinIndexer.Schedules
open BitcoinIndexer.Keeping
open BitcoinIndexer.PersistedMode
open BitcoinIndexer.Interleaving

/-- The block table is `rows`, and no batch is on its way to it. -/
structure Untouched (rows : List BlockRow) (w : World) : Prop where
  block : w.db.block = rows
  state : w.db.bulkMode ≠ none
  held : held w = []
  txn : w.txn = none

/-- A statement that leaves the block table alone, and the state row where there is one. -/
structure Spares (statement : Db → Except SqlError Db) : Prop where
  block : ∀ db after, statement db = .ok after → after.block = db.block
  state : ∀ db after, statement db = .ok after → db.bulkMode ≠ none → after.bulkMode ≠ none

/-- Accesses that store no block. -/
def Harmless : (γ : Type) → Act γ → Prop
  | _, .execute statement => Spares statement
  | _, .lookInFlight | _, .assertInFlightEmpty | _, .pipelineIsNone | _, .dropTx | _, .join _
  | _, .spawn _ _ | _, .query _ => True
  | _, _ => False

variable {rows : List BlockRow} {w : World} {store : IndexerStore} {β : Type}

/-! ## The workers -/

theorem held_drop (w : World) : held (dropSender w) = held w := by
  cases hworkers : w.workers <;> simp [dropSender, held, heldBy, hworkers]

/-- Threads that hold nothing have nothing to write. -/
theorem Untouched.step (h : Untouched rows w) (event : WorkerEvent) :
    Untouched rows (w.step event) := by
  cases hworkers : w.workers with
  | none => rwa [step_none hworkers]
  | some p =>
      have hheld := h.held
      rw [held_some hworkers, heldBy, List.append_eq_nil_iff, List.append_eq_nil_iff] at hheld
      obtain ⟨hwriter, hqueryFmt, hutxo⟩ := hheld
      have htransition := transition_step hworkers event
      generalize w.step event = after at htransition ⊢
      cases htransition with
      | stay => exact h
      | blocksProcessed batch consumed hreceived => simp [hreceived] at hutxo
      | chunkFetched batch fetch chunk queries hfetching => simp [hfetching] at hutxo
      | fetched batch fetch hfetching => simp [hfetching] at hutxo
      | utxoSent msg hsend => simp [hsend] at hutxo
      | formatted msg queries height hreceived => simp [hreceived] at hqueryFmt
      | queriesSent msg hsend => simp [hsend] at hqueryFmt
      | committed msg db hreceived => simp [hreceived] at hwriter
      | refused failAt msg transaction error hreceived => simp [hreceived] at hwriter
      | _ =>
          refine ⟨h.block, h.state, ?_, h.txn⟩
          simp [Pipeline.held, heldBy, World.setWriter, hutxo, hqueryFmt, hwriter]

theorem stable_untouched (D : Discipline Act IndexerStore Halt World WorkerEvent Call) :
    D.Stable system (Untouched rows) :=
  fun event _ _ h => h.step event

/-! ## Accesses -/

theorem Untouched.exec (h : Untouched rows w) {access : Act β} (hharmless : Harmless β access)
    (fails : Bool) : Untouched rows ((exec access fails w).after w) := by
  have haccessed := accessed_exec access fails w
  generalize (Store.exec access fails w).after w = after at haccessed ⊢
  cases haccessed with
  | stay => exact h
  | dropped => exact ⟨h.block, h.state, (held_drop w).trans h.held, h.txn⟩
  | joined => exact ⟨h.block, h.state, rfl, h.txn⟩
  | spawned => exact ⟨h.block, h.state, rfl, h.txn⟩
  | executed statement db hstatement =>
      exact ⟨(hharmless.block w.db db hstatement).trans h.block,
        hharmless.state w.db db hstatement h.state, h.held, h.txn⟩
  | aborted => simpa only [abort, h.txn] using h
  | _ => exact hharmless.elim

theorem spares_ok : Spares Except.ok where
  block := fun db after hok => by rw [← Except.ok.inj hok]
  state := fun db after hok h => by rwa [← Except.ok.inj hok]

theorem spares_setSchema {mode : Mode} (hmode : mode ≠ .freshBulk) : Spares (Db.setSchema mode) where
  block := by
    intro db after hok
    cases mode <;> simp only [Db.setSchema] at hok
    case freshBulk => exact absurd rfl hmode
    all_goals
      split_ifs at hok
      rw [← Except.ok.inj hok]
  state := fun db after hok h => by rwa [keepsState_setSchema mode db after hok]

/-! ## Programs -/

theorem harmless_stopWorkers : Moves Harmless Eq stopWorkers :=
  Moves.act trivial fun _ => Moves.act trivial fun _ => Moves.act trivial fun _ =>
    Moves.act trivial fun _ => Moves.perform trivial

theorem harmless_startWorkers : Moves Harmless Eq startWorkers :=
  Moves.read fun _ => Moves.perform trivial

/-- There is nothing to flush. -/
theorem harmless_flushWorkers (hbatch : store.batch = []) :
    Ensures Harmless (fun _ after => after.batch = []) flushWorkers store := by
  simp only [flushWorkers, Prog.bind_eq, Prog.perform_bind]
  refine ⟨trivial, fun stopped => ?_⟩
  cases stopped with
  | true => exact hbatch
  | false =>
      have hflush : Ensures Harmless (fun _ after => after = store) flushBatch store := by
        simp only [flushBatch, Prog.bind_eq, Prog.read_bind, ensures_loc]
        rw [if_pos (List.isEmpty_iff.2 hbatch)]
        rfl
      apply Ensures.bind _ hflush
      rintro _ _ rfl
      refine ⟨trivial, fun empty => ?_⟩
      cases empty with
      | true => exact hbatch
      | false =>
          have hrestarts : Moves Harmless Eq flushWorkersUnconditionally :=
            harmless_stopWorkers.bind fun _ => harmless_startWorkers
          apply (hrestarts _).mono
          rintro _ _ rfl
          exact hbatch

theorem harmless_getHashByHeight (hbatch : store.batch = []) (height : BlockHeight) :
    Ensures Harmless (fun _ after => after.batch = []) (getHashByHeight height) store := by
  simp only [getHashByHeight, Prog.bind_eq, Prog.read_bind, ensures_loc]
  split_ifs
  · exact hbatch
  · cases store.pendingReorg.get height with
    | some block => exact hbatch
    | none =>
        apply Ensures.bind _ (harmless_flushWorkers hbatch)
        intro _ after hafter
        refine ⟨trivial, fun parts => ?_⟩
        apply (unmoved_joinHash parts after).mono
        rintro _ _ rfl
        exact hafter

/-- What `new` does once it knows that the store is not fresh. -/
theorem harmless_opened {mode : Mode} (hmode : mode ≠ .freshBulk) (network : Network)
    (nodeChainHeadHeight chainBlockCount : BlockHeight) :
    Ensures Harmless (fun _ after => after.batch = [])
      ((whenever (mode = .freshBulk) selfTest).bind fun _ =>
        .loc (fun store => (store, store)) fun store =>
          .act (.execute (Db.setSchema store.mode)) fun _ => startWorkers)
      (.opened mode network nodeChainHeadHeight chainBlockCount) := by
  rw [decide_eq_false hmode, whenever_false, Prog.pure_bind]
  exact ⟨spares_setSchema hmode, fun _ => ⟨trivial, fun _ => rfl⟩⟩

/-! ## Configurations -/

/-- Between two calls nothing waits in the batch either. -/
def Resting (rows : List BlockRow) (store : IndexerStore) (w : World) : Prop :=
  store.batch = [] ∧ Untouched rows w

/-- A configuration whose call stores nothing. -/
abbrev Dormant (rows : List BlockRow) (c : StoreConfig) : Prop :=
  SafeConfig system answered (Untouched rows) (fun _ _ => Untouched rows) (Resting rows) c

theorem safe_harmless {α : Type} {Q : α → IndexerStore → Prop} {prog : StoreM α}
    (hprog : Ensures Harmless Q prog store) (h : Untouched rows w) :
    Safe system answered (Untouched rows) (fun _ _ => Untouched rows)
      (fun value after w => Q value after ∧ Untouched rows w) prog store w :=
  hprog.safe (stable_untouched answered) (fun _ h => h) (fun _ _ _ h => h)
    (fun _ fails _ hharmless h => h.exec hharmless fails) h

/-- A chain is there: the store is not fresh. -/
theorem safe_readIndexerState (hrows : rows ≠ []) (h : Untouched rows w) :
    Safe system answered (Untouched rows) (fun _ _ => Untouched rows)
      (fun mode _ w => mode ≠ .freshBulk ∧ Untouched rows w) readIndexerState store w := by
  simp only [readIndexerState, Prog.bind_eq, Prog.perform_bind]
  apply Safe.act (stable_untouched answered) (fun _ h => h) _ h
  intro ready hready fails _
  cases fails with
  | true => exact hready
  | false =>
      obtain ⟨bulk, hbulk⟩ := Option.ne_none_iff_exists'.1 hready.state
      have hlength : ready.db.block.length ≠ 0 := by
        rw [hready.block]
        exact fun hzero => hrows (List.length_eq_zero_iff.1 hzero)
      have hmode : indexerStateMode ready.db = some (if bulk then .bulk else .normal) := by
        cases bulk <;> simp [indexerStateMode, hbulk, hlength]
      simp only [system, systemOf_exec, exec, execSelect, hmode]
      refine ⟨?_, hready⟩
      cases bulk <;> decide

theorem safe_new (hrows : rows ≠ []) (h : Untouched rows w) (nodeChainHeadHeight : BlockHeight)
    (network : Network) : Safe system answered (Untouched rows) (fun _ _ => Untouched rows)
      (fun _ => Resting rows) (new nodeChainHeadHeight network) store w := by
  simp only [new, Prog.bind_eq, Prog.perform_bind, Prog.modify_bind, Prog.read_bind]
  apply Safe.act (stable_untouched answered) (fun _ h => h) _ h
  intro created hcreated fails _
  cases fails with
  | true => exact hcreated
  | false =>
      have hharmless : Harmless Unit (.execute .ok) := spares_ok
      have hkept : Untouched rows (created.publish created.db) := hcreated.exec hharmless false
      apply Safe.bind _ (safe_readIndexerState hrows hkept)
      rintro mode first read ⟨hmode, hread⟩
      refine (safe_harmless ?_ hread).mono fun _ _ _ hafter => hafter
      refine ⟨trivial, fun chainBlockCount => ⟨trivial, fun chainCurrentBlockCount => ?_⟩⟩
      apply Ensures.bind _ (moves_assertThat (B := Harmless) (R := Eq) _ _ first)
      rintro _ _ rfl
      exact harmless_opened hmode network nodeChainHeadHeight chainBlockCount

namespace Dormant

variable {c : StoreConfig}

theorem untouched (h : Dormant rows c) : Untouched rows c.shared :=
  have hrests : ∀ store w, Resting rows store w → Untouched rows w := fun _ _ h => h.2
  h.always hrests fun _ _ _ h => h

theorem returned (h : Dormant rows c) (hreturned : c.prog = .pure ()) :
    Resting rows c.locals c.shared := by
  rwa [Dormant, SafeConfig, hreturned, safe_pure] at h

/-- A new process over the same blocks. -/
theorem start (hrows : rows ≠ []) (hblock : c.shared.db.block = rows)
    (hstate : c.shared.db.bulkMode ≠ none) (nodeChainHeadHeight : BlockHeight) (network : Network)
    (resume : ℕ) :
    Dormant rows (system.next (.call (.start nodeChainHeadHeight network resume)) c) := by
  have hfresh : Untouched rows (restart resume c.shared) := by
    refine ⟨?_, ?_, rfl, txn_abort c.shared⟩ <;>
      cases htxn : c.shared.txn <;> simpa [restart, abort, htxn, Db.rollback] using ‹_›
  exact (safe_settle _ _ _).2 (safe_new hrows hfresh nodeChainHeadHeight network)

theorem getHashByHeight (h : Dormant rows c) (hreturned : c.prog = .pure ())
    (height : BlockHeight) : Dormant rows (system.next (.call (.getHashByHeight height)) c) := by
  obtain ⟨hbatch, huntouched⟩ := h.returned hreturned
  apply (safe_settle _ _ _).2
  exact Safe.bind (fun _ _ _ hafter => hafter)
    (safe_harmless (harmless_getHashByHeight hbatch height) huntouched)

theorem step (h : Dormant rows c) (fails : Bool) : Dormant rows (system.next (.step fails) c) :=
  h.advance fun _ _ _ => trivial

theorem interfere (h : Dormant rows c) (event : WorkerEvent) :
    Dormant rows (system.next (.other event) c) :=
  Safe.interfere (fun _ _ event _ _ hrests => ⟨hrests.1, hrests.2.step event⟩)
    (fun _ _ event _ _ huntouched => huntouched.step event) c.locals event c.shared trivial h

end Dormant

end BitcoinIndexer.Quiescent
