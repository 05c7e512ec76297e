import BitcoinIndexer.Pipeline.Ending

/-!
# Every call of the store comes to an end

A thread is joined only after its channel has been closed, wherever the call begins and
whatever it finds.
-/

namespace BitcoinIndexer.Pipeline

open Relation
open BitcoinIndexer.Types
open BitcoinIndexer.Tables
open BitcoinIndexer.Formatter
open BitcoinIndexer.UtxoCache
open BitcoinIndexer.Worker
open BitcoinIndexer.Store
open BitcoinIndexer.Interleaving

variable {α β : Type}

/-- From whatever state the program is run, each thread it joins has been told to end. -/
def ClosesFirst (prog : StoreM α) : Prop :=
  ∀ locals shared, system.Meets Joinable prog locals shared

namespace ClosesFirst

variable {prog : StoreM α} {rest : α → StoreM β}

theorem value (result : α) : ClosesFirst (.pure result : StoreM α) := fun _ _ => trivial

theorem halt (reason : Halt) : ClosesFirst (.halt reason : StoreM α) := fun _ _ => trivial

theorem bind (h : ClosesFirst prog) (hrest : ∀ result, ClosesFirst (rest result)) :
    ClosesFirst (prog.bind rest) :=
  fun locals shared => System.Meets.bind hrest (h locals shared)

theorem read {next : IndexerStore → StoreM α} (hnext : ∀ store, ClosesFirst (next store)) :
    ClosesFirst (.loc (fun store => (store, store)) next) :=
  fun locals shared => hnext locals locals shared

theorem modify {change : IndexerStore → IndexerStore} : ClosesFirst (modifyStore change) :=
  fun _ _ => trivial

theorem act {access : Act β} {next : β → StoreM α} (hjoinable : ∀ w, Joinable β access w)
    (hnext : ∀ answer, ClosesFirst (next answer)) : ClosesFirst (.act access next) := by
  intro locals shared later _
  refine ⟨hjoinable later, fun fails => ?_⟩
  cases system.exec access fails later with
  | done answer after => exact hnext answer locals after
  | _ => trivial

theorem perform {access : Act α} (hjoinable : ∀ w, Joinable α access w) :
    ClosesFirst (Store.perform access) :=
  act hjoinable value

theorem assertThat (condition : Bool) (reason : Panic) :
    ClosesFirst (Store.assertThat condition reason) := by
  cases condition with
  | true => exact value ()
  | false => exact halt _

theorem whenever (condition : Bool) {action : StoreM Unit} (h : ClosesFirst action) :
    ClosesFirst (Store.whenever condition action) := by
  cases condition with
  | true => exact h
  | false => exact value ()

end ClosesFirst

/-! ## Stopping the workers -/

theorem Closed.drifts {before after : World}
    (hdrifts : ReflTransGen (fun before after => ∃ event, after = system.drift before event) before
      after) (h : Closed before) : Closed after := by
  induction hdrifts with
  | refl => exact h
  | tail _ hstep ih =>
      obtain ⟨event, rfl⟩ := hstep
      cases event with
      | none => exact ih
      | some event => exact ih.step event

theorem Closed.join {thread : Thread} {w after : World} {fails : Bool} (h : Closed w)
    (hexec : system.exec (.join thread) fails w = .done () after) : Closed after := by
  have haccessed := accessed_exec (.join thread) fails w
  rw [show exec (.join thread) fails w = .done () after from hexec] at haccessed
  change Accessed w (.join thread) after at haccessed
  cases haccessed with
  | stay => exact h
  | joined => exact fun q hq => by cases hq
  | aborted =>
      cases htxn : w.txn with
      | none => simpa [abort, htxn] using h
      | some transaction =>
          simp only [abort, htxn]
          exact h

/-- Once the channel is closed it stays so until new workers are started. -/
theorem meets_join {thread : Thread} {next : Unit → StoreM α} {store : IndexerStore} {w : World}
    (hclosed : Closed w)
    (hnext : ∀ w, Closed w → system.Meets Joinable (next ()) store w) :
    system.Meets Joinable (.act (.join thread) next) store w := by
  intro later hdrifts
  have hlater := hclosed.drifts hdrifts
  refine ⟨hlater, fun fails => ?_⟩
  cases hexec : system.exec (.join thread) fails later with
  | done value after => exact hnext after (hlater.join hexec)
  | _ => trivial

theorem closesFirst_stopWorkers : ClosesFirst stopWorkers := by
  intro store w
  simp only [stopWorkers, Prog.bind_eq, Prog.perform_bind]
  intro later _
  refine ⟨trivial, fun fails => ?_⟩
  have hclosed : Closed (dropSender later) := by
    intro q hq
    obtain ⟨p, -, rfl⟩ := Option.map_eq_some_iff.1 hq
    rfl
  apply meets_join hclosed
  intro w hclosed
  apply meets_join hclosed
  intro w hclosed
  apply meets_join hclosed
  intro w _
  have hassert : ClosesFirst (Store.perform .assertInFlightEmpty) :=
    ClosesFirst.perform fun _ => trivial
  exact hassert store w

theorem closesFirst_startWorkers : ClosesFirst startWorkers :=
  .read fun _ => .perform fun _ => trivial

theorem closesFirst_flushBatch : ClosesFirst flushBatch := by
  simp only [flushBatch, Prog.bind_eq, Prog.read_bind]
  apply ClosesFirst.read
  intro store
  split_ifs
  · exact .value ()
  · exact ClosesFirst.modify.bind fun _ => .act (fun _ => trivial) fun _ =>
      .act (fun _ => trivial) fun _ => .modify

theorem closesFirst_flushWorkers : ClosesFirst flushWorkers := by
  refine ClosesFirst.act (fun _ => trivial) fun stopped => ?_
  cases stopped with
  | true => exact .value ()
  | false =>
      apply closesFirst_flushBatch.bind
      intro _
      refine ClosesFirst.act (fun _ => trivial) fun empty => ?_
      cases empty with
      | true => exact .value ()
      | false => exact closesFirst_stopWorkers.bind fun _ => closesFirst_startWorkers

/-! ## Modes and the opening -/

theorem closesFirst_setModeUncodintionally (mode : Mode) :
    ClosesFirst (setModeUncodintionally mode) :=
  ClosesFirst.modify.bind fun _ => closesFirst_flushWorkers.bind fun _ =>
    .act (fun _ => trivial) fun _ => .perform fun _ => trivial

theorem closesFirst_setMode (mode : Mode) : ClosesFirst (setMode mode) := by
  simp only [setMode, Prog.bind_eq, Prog.read_bind]
  apply ClosesFirst.read
  intro store
  split_ifs
  · exact .value ()
  · exact closesFirst_setModeUncodintionally mode

theorem closesFirst_selfTest : ClosesFirst selfTest := by
  simp only [selfTest, Prog.bind_eq, Prog.read_bind]
  apply ClosesFirst.read
  intro store
  exact (ClosesFirst.assertThat _ _).bind fun _ =>
    (closesFirst_setModeUncodintionally .freshBulk).bind fun _ =>
      (closesFirst_setModeUncodintionally .bulk).bind fun _ =>
        (closesFirst_setModeUncodintionally .normal).bind fun _ =>
          (closesFirst_setModeUncodintionally .bulk).bind fun _ =>
            closesFirst_setModeUncodintionally .freshBulk

theorem closesFirst_readIndexerState : ClosesFirst readIndexerState := by
  refine ClosesFirst.act (fun _ => trivial) fun answer => ?_
  cases answer with
  | some mode => exact .value mode
  | none => exact .act (fun _ => trivial) fun _ => .value _

theorem closesFirst_new (nodeChainHeadHeight : BlockHeight) (network : Network) :
    ClosesFirst (Store.new nodeChainHeadHeight network) := by
  refine ClosesFirst.act (fun _ => trivial) fun _ => ?_
  apply closesFirst_readIndexerState.bind
  intro mode
  exact .act (fun _ => trivial) fun _ => .act (fun _ => trivial) fun _ =>
    (ClosesFirst.assertThat _ _).bind fun _ => ClosesFirst.modify.bind fun _ =>
      (ClosesFirst.whenever _ closesFirst_selfTest).bind fun _ => .read fun _ =>
        .act (fun _ => trivial) fun _ => closesFirst_startWorkers

/-! ## Reading -/

theorem closesFirst_joinHash (parts : Option (HashId × List UInt8)) :
    ClosesFirst (joinHash parts) := by
  unfold joinHash
  split
  · exact .value none
  · split
    · exact .halt _
    · exact .value _

theorem closesFirst_readDbBlockHashByHeight (height : BlockHeight) :
    ClosesFirst (readDbBlockHashByHeight height) :=
  .act (fun _ => trivial) closesFirst_joinHash

theorem closesFirst_getHashByHeight (height : BlockHeight) :
    ClosesFirst (getHashByHeight height) := by
  simp only [getHashByHeight, Prog.bind_eq, Prog.read_bind]
  apply ClosesFirst.read
  intro store
  split_ifs
  · exact .value none
  · cases store.pendingReorg.get height with
    | some block => exact .value _
    | none =>
        exact closesFirst_flushWorkers.bind fun _ => closesFirst_readDbBlockHashByHeight height

/-! ## Inserting -/

theorem closesFirst_insertBelowTip (block : BlockData) : ClosesFirst (insertBelowTip block) := by
  apply closesFirst_flushBatch.bind
  intro _
  apply closesFirst_stopWorkers.bind
  intro _
  apply (closesFirst_readDbBlockHashByHeight block.height).bind
  intro dbHash
  cases dbHash with
  | none => exact .halt _
  | some dbHash =>
      simp only
      split_ifs
      · exact closesFirst_startWorkers
      · exact .read fun _ => (ClosesFirst.assertThat _ _).bind fun _ =>
          ClosesFirst.modify.bind fun _ => .read fun _ => .assertThat _ _

theorem closesFirst_insertExtending (block : BlockData) : ClosesFirst (insertExtending block) :=
  ClosesFirst.modify.bind fun _ => .read fun _ =>
    (ClosesFirst.whenever _ closesFirst_flushBatch).bind fun _ =>
      .whenever _ (closesFirst_setMode .normal)

theorem closesFirst_insertWhenAtTip (block : BlockData) : ClosesFirst (insertWhenAtTip block) := by
  simp only [insertWhenAtTip, Prog.bind_eq, Prog.read_bind]
  apply ClosesFirst.read
  intro store
  apply (ClosesFirst.assertThat _ _).bind
  intro _
  refine ClosesFirst.act (fun _ => trivial) fun stopped => ?_
  apply (ClosesFirst.assertThat _ _).bind
  intro _
  apply (ClosesFirst.assertThat _ _).bind
  intro _
  split_ifs
  · exact closesFirst_insertBelowTip block
  · exact closesFirst_insertExtending block

theorem closesFirst_firstDifferentHeight (pending : List (BlockHeight × BlockData)) :
    ClosesFirst (firstDifferentHeight pending) := by
  induction pending with
  | nil => exact .value none
  | cons entry rest ih =>
      have hread : ClosesFirst (readDbBlockHashByHeightTrans entry.1) :=
        .act (fun _ => trivial) closesFirst_joinHash
      apply hread.bind
      intro existing
      cases existing with
      | none => exact ih
      | some existingHash =>
          simp only
          split_ifs
          · exact .value _
          · exact ih

theorem closesFirst_reviveOrCollect (entries : List (BlockHeight × BlockData))
    (prevHeight : Option BlockHeight) : ClosesFirst (reviveOrCollect entries prevHeight) := by
  induction entries generalizing prevHeight with
  | nil => exact .value ()
  | cons entry rest ih =>
      apply (ClosesFirst.assertThat _ _).bind
      intro _
      refine ClosesFirst.act (fun _ => trivial) fun extinct => ?_
      cases extinct with
      | none => exact ClosesFirst.modify.bind fun _ => ih _
      | some extinct =>
          cases extinct with
          | false => exact .halt _
          | true =>
              exact .act (fun _ => trivial) fun _ => .act (fun _ => trivial) fun _ =>
                .act (fun _ => trivial) fun _ => ih _

theorem closesFirst_fetchOutputs (queries : List (List HashIdOutPoint)) (out : UtxoDetailsMap) :
    ClosesFirst (fetchOutputs queries out) := by
  induction queries generalizing out with
  | nil => exact .value out
  | cons chunk queries ih => exact .act (fun _ => trivial) fun _ => ih _

theorem closesFirst_executeQueries (queries : List (Db → Except SqlError Db)) :
    ClosesFirst (executeQueries queries) := by
  induction queries with
  | nil => exact .value ()
  | cons statement queries ih => exact .act (fun _ => trivial) fun _ => ih

theorem closesFirst_processBlocks (blocks : List BlockData) (txIds : TxIdMap) :
    ClosesFirst (processBlocks blocks txIds) := by
  unfold processBlocks
  split
  · exact .halt _
  · exact (closesFirst_fetchOutputs _ _).bind fun _ =>
      (ClosesFirst.assertThat _ _).bind fun _ => .value _

theorem closesFirst_insertBlocks (blocks : List BlockData) : ClosesFirst (insertBlocks blocks) := by
  simp only [insertBlocks, Prog.bind_eq, Prog.read_bind]
  apply ClosesFirst.read
  intro store
  apply (closesFirst_processBlocks blocks _).bind
  intro inputsUtxoMap
  split
  · exact .halt _
  · exact (closesFirst_executeQueries _).bind fun _ => .perform fun _ => trivial

theorem closesFirst_finishReorg : ClosesFirst finishReorg := by
  simp only [finishReorg, Prog.bind_eq, Prog.read_bind]
  apply ClosesFirst.read
  intro store
  apply (ClosesFirst.assertThat _ _).bind
  intro _
  refine ClosesFirst.act (fun _ => trivial) fun stopped => ?_
  apply (ClosesFirst.assertThat _ _).bind
  intro _
  refine ClosesFirst.act (fun _ => trivial) fun _ => ?_
  apply (closesFirst_firstDifferentHeight _).bind
  intro firstDifferent
  exact .act (fun _ => trivial) fun _ => .act (fun _ => trivial) fun _ =>
    ClosesFirst.modify.bind fun _ => (closesFirst_reviveOrCollect _ _).bind fun _ =>
      ClosesFirst.modify.bind fun _ => .read fun _ => (ClosesFirst.assertThat _ _).bind fun _ =>
        ClosesFirst.modify.bind fun _ => (closesFirst_insertBlocks _).bind fun _ =>
          closesFirst_startWorkers

theorem closesFirst_insertWhenInReorg (block : BlockData) :
    ClosesFirst (insertWhenInReorg block) := by
  simp only [insertWhenInReorg, Prog.bind_eq, Prog.read_bind]
  apply ClosesFirst.read
  intro store
  apply (ClosesFirst.assertThat _ _).bind
  intro _
  refine ClosesFirst.act (fun _ => trivial) fun stopped => ?_
  exact (ClosesFirst.assertThat _ _).bind fun _ => (ClosesFirst.assertThat _ _).bind fun _ =>
    ClosesFirst.modify.bind fun _ => .whenever _ closesFirst_finishReorg

theorem closesFirst_insert (block : BlockData) : ClosesFirst (Store.insert block) := by
  simp only [Store.insert, Prog.bind_eq, Prog.read_bind]
  apply ClosesFirst.read
  intro store
  split_ifs
  · exact closesFirst_insertWhenInReorg block
  · exact closesFirst_insertWhenAtTip block

end BitcoinIndexer.Pipeline
