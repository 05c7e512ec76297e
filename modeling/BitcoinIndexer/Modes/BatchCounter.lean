import BitcoinIndexer.Chain.FailedReorg
import BitcoinIndexer.Modes.PersistedMode

/-!
# The transactions in the batch

`batch_txs_total` follows `batch` wherever a block is pushed and wherever a batch is flushed.
A reorg takes its new blocks out of the batch without that: their transactions stay in the
counter until the next flush.
-/

namespace BitcoinIndexer.BatchCounter

open BitcoinIndexer.Types
open BitcoinIndexer.Tables
open BitcoinIndexer.Worker
open BitcoinIndexer.Store
open BitcoinIndexer.Following
open BitcoinIndexer.Reorg
open BitcoinIndexer.FailedReorg (attempting)
open BitcoinIndexer.Schedules
open BitcoinIndexer.Guarantees (unrestricted)
open BitcoinIndexer.CurrentHeight
open BitcoinIndexer.Keeping
open BitcoinIndexer.RunningMode (afterwards_quiet)
open BitcoinIndexer.PersistedMode
open BitcoinIndexer.OrderedMap
open BitcoinIndexer.Interleaving

/-- The number of transactions in some blocks. -/
def txsTotal (blocks : List BlockData) : ℕ :=
  (blocks.flatMap fun block => block.data.txdata).length

/-- `batch_txs_total` is the number of transactions in `batch`. -/
def Counts (store : IndexerStore) : Prop := store.batchTxsTotal = txsTotal store.batch

/-- The pending blocks that are not stored, from the first different height on. -/
def unstored (store : IndexerStore) (db : Db) : List BlockData :=
  (store.pendingReorg.splitOff ((firstDifferent db store.pendingReorg.entries).getD
    store.chainBlockCount)).values.filter (!isIndexed db ·)

/-- If the insertion of `block` completes a reorg, the blocks it brings have no transactions. -/
def Weightless (block : BlockData) (store : IndexerStore) (db : Db) : Prop :=
  store.isInReorg = true → block.height = store.chainBlockCount →
    txsTotal (unstored (attempting block store) db) = 0

variable {α β : Type} {store : IndexerStore} {block : BlockData} {w : World}
variable {D : Discipline Act IndexerStore Halt World WorkerEvent Call}

theorem txsTotal_append (left right : List BlockData) :
    txsTotal (left ++ right) = txsTotal left + txsTotal right := by
  rw [txsTotal, List.flatMap_append, List.length_append, ← txsTotal, ← txsTotal]

theorem txsTotal_singleton (block : BlockData) : txsTotal [block] = block.data.txdata.length := by
  rw [txsTotal, List.flatMap_singleton]

/-- Pushing a block keeps the counter as right or wrong as it is. -/
theorem counts_push : Counts (store.push block) ↔ Counts store := by
  simp only [Counts, IndexerStore.push, txsTotal_append, txsTotal_singleton, Nat.add_right_cancel_iff]

theorem batchTxsTotal_collectAll (blocks : List BlockData) (store : IndexerStore) :
    (collectAll blocks store).batchTxsTotal = store.batchTxsTotal + txsTotal blocks := by
  induction blocks generalizing store with
  | nil => rfl
  | cons block blocks ih =>
      calc (collectAll (block :: blocks) store).batchTxsTotal
          = (store.collect block).batchTxsTotal + txsTotal blocks := ih (store.collect block)
        _ = store.batchTxsTotal + (txsTotal [block] + txsTotal blocks) := by
            rw [txsTotal_singleton, ← Nat.add_assoc]
            rfl
        _ = store.batchTxsTotal + txsTotal (block :: blocks) := by
            rw [← txsTotal_append, List.singleton_append]

/-! ## Parts that add no block -/

/-- No block is added to the batch and none becomes pending. -/
structure Drains (before after : IndexerStore) : Prop where
  pendingReorg : after.pendingReorg = before.pendingReorg
  batch : before.batch = [] → after.batch = []
  counts : Counts before → Counts after

theorem Drains.refl (store : IndexerStore) : Drains store store := ⟨rfl, id, id⟩

theorem Drains.trans {first second third : IndexerStore} (h : Drains first second)
    (h' : Drains second third) : Drains first third :=
  ⟨h'.pendingReorg.trans h.pendingReorg, h'.batch ∘ h.batch, h'.counts ∘ h.counts⟩

instance : Std.Refl Drains := ⟨Drains.refl⟩

instance : IsTrans IndexerStore Drains := ⟨fun _ _ _ => Drains.trans⟩

/-- All accesses. -/
abbrev Any : (γ : Type) → Act γ → Prop := fun _ _ => True

/-- Flushing empties the batch and, where there was something in it, the counter. -/
theorem ensures_flushBatch (store : IndexerStore) :
    Ensures Any (fun _ after => Drains store after ∧ after.batch = [] ∧ after.mode = store.mode)
      flushBatch store := by
  simp only [flushBatch, Prog.bind_eq, Prog.read_bind, ensures_loc]
  split_ifs with hempty
  · exact ⟨.refl store, List.isEmpty_iff.1 hempty, rfl⟩
  · exact ⟨trivial, fun _ => ⟨trivial, fun _ => ⟨⟨rfl, fun _ => rfl, fun _ => rfl⟩, rfl, rfl⟩⟩⟩

theorem drains_flushBatch : Moves Any Drains flushBatch :=
  fun store => (ensures_flushBatch store).mono fun _ _ hafter => hafter.1

theorem unmoved_startWorkers : Unmoved Any startWorkers :=
  Moves.read fun _ => Moves.perform trivial

theorem drains_flushWorkers : Moves Any Drains flushWorkers := by
  apply Moves.act trivial
  intro stopped
  cases stopped with
  | true => exact Moves.value ()
  | false =>
      apply drains_flushBatch.bind
      intro _
      apply Moves.act trivial
      intro empty
      cases empty with
      | true => exact Moves.value ()
      | false =>
          have hstop : Unmoved Any stopWorkers := unmoved_stopWorkers (fun _ _ _ => trivial) trivial
          exact hstop.of_eq.bind fun _ => unmoved_startWorkers.of_eq

theorem drains_setModeUncodintionally (mode : Mode) :
    Moves Any Drains (setModeUncodintionally mode) := by
  have hmode : Moves Any Drains (modifyStore fun store => { store with mode := mode }) :=
    Moves.modify fun _ => ⟨rfl, id, id⟩
  exact hmode.bind fun _ => drains_flushWorkers.bind fun _ =>
    Moves.act trivial fun _ => Moves.perform trivial

theorem drains_setMode (mode : Mode) : Moves Any Drains (setMode mode) := by
  simp only [setMode, Prog.bind_eq, Prog.read_bind]
  apply Moves.read
  intro store
  split_ifs
  · exact Moves.value ()
  · exact drains_setModeUncodintionally mode

theorem drains_selfTest : Moves Any Drains selfTest := by
  apply Moves.read
  intro store
  exact (moves_assertThat _ _).bind fun _ =>
    (drains_setModeUncodintionally .freshBulk).bind fun _ =>
      (drains_setModeUncodintionally .bulk).bind fun _ =>
        (drains_setModeUncodintionally .normal).bind fun _ =>
          (drains_setModeUncodintionally .bulk).bind fun _ =>
            drains_setModeUncodintionally .freshBulk

/-- A new store has an empty batch, and nothing is pending. -/
theorem ensures_new (nodeChainHeadHeight : BlockHeight) (network : Network) :
    Ensures Any (fun _ after => after.isInReorg = false ∧ Counts after)
      (new nodeChainHeadHeight network) store := by
  simp only [new, Prog.bind_eq, Prog.modify_bind, Prog.read_bind, Prog.perform_bind]
  refine ⟨trivial, fun _ => ?_⟩
  apply Ensures.bind _ (ensures_true readIndexerState store)
  intro mode first _
  refine ⟨trivial, fun chainBlockCount => ⟨trivial, fun chainCurrentBlockCount => ?_⟩⟩
  apply Ensures.bind _ (ensures_true (assertThat _ _) first)
  intro _ second _
  rw [ensures_loc]
  have hrest : Moves Any Drains ((whenever (mode = .freshBulk) selfTest).bind fun _ =>
      .loc (fun store => (store, store)) fun store => .act (.execute (Db.setSchema store.mode))
        fun _ => startWorkers) := by
    apply (moves_whenever _ drains_selfTest).bind
    exact fun _ => Moves.read fun _ => Moves.act trivial fun _ => unmoved_startWorkers.of_eq
  apply (hrest _).mono
  intro _ after hafter
  refine ⟨?_, hafter.counts rfl⟩
  rw [IndexerStore.isInReorg, hafter.pendingReorg]
  rfl

/-! ## A reorg without interference -/

section Transaction

variable {Q : α → IndexerStore → World → Prop} {transaction db : Db}

theorem afterwards_assertThat {condition : Bool} {reason : Panic} {rest : Unit → StoreM α}
    (h : condition = true → Afterwards D Q (rest ()) store w) :
    Afterwards D Q ((assertThat condition reason).bind rest) store w := by
  cases condition with
  | false => trivial
  | true => exact h rfl

theorem afterwards_transQuery {select : Db → β} {next : β → StoreM α} (hnone : w.workers = none)
    (hnext : Afterwards D Q (next (select transaction)) store (inTxn transaction w)) :
    Afterwards D Q (.act (.transQuery fun db => .ok (select db)) next) store
      (inTxn transaction w) := by
  have hstill : D.Stable system fun later => later = inTxn transaction w := stable_still hnone
  apply Safe.act_still hstill trivial
  intro fails _
  cases fails with
  | true => trivial
  | false => exact hnext

theorem afterwards_transExecute {change : Db → Db} {next : Unit → StoreM α}
    (hnone : w.workers = none)
    (hnext : Afterwards D Q (next ()) store (inTxn (change transaction) w)) :
    Afterwards D Q (.act (.transExecute fun db => .ok (change db)) next) store
      (inTxn transaction w) := by
  have hstill : D.Stable system fun later => later = inTxn transaction w := stable_still hnone
  apply Safe.act_still hstill trivial
  intro fails _
  cases fails with
  | true => trivial
  | false => exact hnext

theorem firstDifferent_cons (height : BlockHeight) (block : BlockData)
    (pending : List (BlockHeight × BlockData)) :
    firstDifferent db ((height, block) :: pending) =
      if (hashAtHeight db height).any (· ≠ block.id) then some block.height
      else firstDifferent db pending := by
  rw [firstDifferent, List.find?_cons]
  cases (hashAtHeight db height).any (· ≠ block.id) <;> rfl

theorem afterwards_firstDifferentHeight (hnone : w.workers = none)
    (pending : List (BlockHeight × BlockData)) :
    Afterwards D (fun value after later => value = firstDifferent transaction pending ∧
        after = store ∧ later = inTxn transaction w)
      (firstDifferentHeight pending) store (inTxn transaction w) := by
  induction pending with
  | nil => exact ⟨rfl, rfl, rfl⟩
  | cons entry pending ih =>
      obtain ⟨height, block⟩ := entry
      simp only [firstDifferentHeight, readDbBlockHashByHeightTrans, Prog.bind_eq,
        Prog.perform_bind, Prog.act_bind, firstDifferent_cons]
      apply afterwards_transQuery hnone
      cases hhead : (transaction.blocksAtHeight height).head? with
      | none =>
          have hhash : hashAtHeight transaction height = none := by
            rw [hashAtHeight, hhead, Option.bind_none]
          simp only [hhash, Option.any_none, Bool.false_eq_true, if_false]
          exact ih
      | some parts =>
          cases hjoin : hashIdAndRestToHash parts.1 parts.2 with
          | none =>
              simp only [joinHash, hjoin]
              trivial
          | some hash =>
              have hhash : hashAtHeight transaction height = some hash := by
                rw [hashAtHeight, hhead, Option.bind_some, hjoin]
              simp only [joinHash, hjoin, hhash, Prog.pure_eq, Prog.pure_bind, Option.any_some,
                decide_eq_true_eq]
              split_ifs
              · exact ⟨rfl, rfl, rfl⟩
              · exact ih

/-- Which blocks are stored is told by the ids in the table. -/
theorem isIndexed_eq_decide :
    isIndexed db block = decide (block.hashId ∈ db.block.map (·.hashId)) := by
  rw [isIndexed, Db.readDbBlockExtinctByHashId, Bool.eq_iff_iff, List.isSome_head?]
  simp [List.filter_eq_nil_iff]

/-- The rows of the same blocks, whether these are extinct or not. -/
def SameBlocks (before after : Db) : Prop :=
  after.block.map (·.hashId) = before.block.map (·.hashId)

theorem SameBlocks.isIndexed (h : SameBlocks db transaction) (block : BlockData) :
    isIndexed transaction block = Following.isIndexed db block := by
  rw [isIndexed_eq_decide, isIndexed_eq_decide, h]

theorem sameBlocks_unmarkExtinct (hashId : HashId) : SameBlocks db (db.unmarkExtinct hashId) := by
  rw [SameBlocks, Db.unmarkExtinct, List.map_map]
  apply List.map_congr_left
  intro row _
  simp only [Function.comp_apply]
  split_ifs <;> rfl

theorem sameBlocks_markExtinct (height : BlockHeight) : SameBlocks db (db.markExtinct height) := by
  rw [SameBlocks, Db.markExtinct, List.map_map]
  apply List.map_congr_left
  intro row _
  simp only [Function.comp_apply]
  split_ifs <;> rfl

/-- The loop collects the blocks that are not stored, in their order. -/
theorem afterwards_reviveOrCollect (hnone : w.workers = none)
    (entries : List (BlockHeight × BlockData)) :
    ∀ {store transaction} prevHeight, SameBlocks db transaction →
      Afterwards D (fun _ after later =>
          after = collectAll ((entries.map (·.2)).filter (!isIndexed db ·)) store ∧
            ∃ revived, later = inTxn revived w)
        (reviveOrCollect entries prevHeight) store (inTxn transaction w) := by
  induction entries with
  | nil => exact fun _ _ => ⟨rfl, _, rfl⟩
  | cons entry entries ih =>
      intro store transaction prevHeight hsame
      obtain ⟨height, block⟩ := entry
      simp only [reviveOrCollect, Prog.bind_eq, Prog.perform_bind, List.map_cons]
      apply afterwards_assertThat
      intro _
      apply afterwards_transQuery hnone
      have hindexed := hsame.isIndexed block
      cases hextinct : transaction.readDbBlockExtinctByHashId block.hashId with
      | none =>
          have hnew : (!isIndexed db block) = true := by
            rw [← hindexed, isIndexed, hextinct]
            rfl
          simp only [List.filter_cons, hnew, if_true]
          exact ih _ hsame
      | some extinct =>
          have hold : (!isIndexed db block) = false := by
            rw [← hindexed, isIndexed, hextinct]
            rfl
          simp only [List.filter_cons, hold, Bool.false_eq_true, if_false]
          cases extinct with
          | false => trivial
          | true =>
              simp only [reviveBlock, Prog.bind_eq, Prog.perform_bind, Prog.act_bind]
              apply afterwards_transExecute hnone
              apply afterwards_transExecute hnone
              apply afterwards_transExecute hnone
              exact ih _ ((sameBlocks_unmarkExtinct block.hashId).trans hsame)

end Transaction

/-- The batch is empty in the end, and the counter has got the transactions of the new
blocks. -/
theorem afterwards_finishReorg (hnone : w.workers = none) :
    Afterwards D (fun _ after _ => after.isInReorg = false ∧ after.batch = [] ∧
        after.batchTxsTotal = store.batchTxsTotal + txsTotal (unstored store w.db))
      finishReorg store w := by
  simp only [finishReorg, Prog.bind_eq, Prog.read_bind, Prog.modify_bind, Prog.perform_bind, safe_loc]
  apply afterwards_assertThat
  intro _
  apply Safe.act_still (stable_still hnone) trivial
  intro fails _
  apply afterwards_assertThat
  intro _
  apply Safe.act_still (stable_still hnone) trivial
  intro fails _
  cases fails with
  | true => trivial
  | false =>
      apply Safe.bind _ (afterwards_firstDifferentHeight hnone store.pendingReorg.entries)
      rintro _ store _ ⟨rfl, rfl, rfl⟩
      apply afterwards_transExecute hnone
      apply afterwards_transExecute hnone
      rw [Afterwards, safe_loc]
      apply Safe.bind _ (afterwards_reviveOrCollect hnone _ none (sameBlocks_markExtinct _))
      rintro _ collected _ ⟨hcollected, revived, rfl⟩
      replace hcollected : collected =
        collectAll (unstored store w.db) { store with pendingReorg := .empty } := hcollected
      have hpending : collected.pendingReorg = .empty := by
        rw [hcollected]
        exact (collectAll_frame _ _).2.2.2.2
      have htotal : collected.batchTxsTotal = store.batchTxsTotal + txsTotal (unstored store w.db) := by
        rw [hcollected, batchTxsTotal_collectAll]
      simp only [safe_loc]
      apply afterwards_assertThat
      intro _
      rw [Afterwards, safe_loc]
      -- neither the new blocks nor the new workers touch the store
      have hrest : Unmoved Any ((insertBlocks collected.batch).bind fun _ => startWorkers) :=
        (unmoved_insertBlocks (fun _ _ _ => trivial) trivial _).bind fun _ => unmoved_startWorkers
      apply (afterwards_of_ensures (hrest _)).mono
      rintro _ after _ rfl
      refine ⟨?_, rfl, htotal⟩
      simp only [IndexerStore.isInReorg, hpending]
      rfl

/-! ## The calls -/

/-- In a reorg the batch is empty, and there are no workers. -/
def Paused (store : IndexerStore) (w : World) : Prop :=
  store.isInReorg = true → store.batch = [] ∧ w.workers = none

theorem paused_of_not (h : store.isInReorg = false) : Paused store w := by
  intro hreorg
  rw [h] at hreorg
  exact absurd hreorg Bool.false_ne_true

theorem stable_paused (store : IndexerStore) : D.Stable system (Paused store) := by
  intro event w hevent h hreorg
  exact ⟨(h hreorg).1, stable_stopped event w hevent (h hreorg).2⟩

theorem Drains.isInReorg {before after : IndexerStore} (h : Drains before after) :
    after.isInReorg = before.isInReorg := by
  rw [IndexerStore.isInReorg, IndexerStore.isInReorg, h.pendingReorg]

/-- A call that leaves the counter as right as it was. -/
abbrev Keeping (D : Discipline Act IndexerStore Halt World WorkerEvent Call) (prog : StoreM Unit)
    (store : IndexerStore) (w : World) : Prop :=
  Afterwards D (fun _ after w => Paused after w ∧ (Counts store → Counts after)) prog store w

theorem keeping_of_drains {prog : StoreM Unit} (h : Moves Any Drains prog)
    (hreorg : store.isInReorg = false) : Keeping D prog store w := by
  apply (afterwards_of_ensures (h store)).mono
  exact fun _ _ _ hafter => ⟨paused_of_not (hafter.isInReorg.trans hreorg), hafter.counts⟩

theorem keeping_insertBelowTip (hreorg : store.isInReorg = false) :
    Keeping D (insertBelowTip block) store w := by
  simp only [insertBelowTip, Prog.bind_eq]
  apply Safe.bind _ (afterwards_of_ensures (ensures_flushBatch store))
  rintro _ flushed _ ⟨hdrains, hempty, -⟩
  apply Safe.bind _ afterwards_stopWorkers
  rintro _ flushed stopped ⟨rfl, hnone⟩
  have hread : Unmoved Quiet (readDbBlockHashByHeight block.height) :=
    unmoved_readDbBlockHashByHeight (AllowsQuiet.simple fun _ _ hquiet => hquiet) block.height
  apply Safe.bind _ (afterwards_quiet (hread _) hnone)
  rintro dbHash _ ready ⟨rfl, hready⟩
  cases dbHash with
  | none => trivial
  | some dbHash =>
      simp only
      split_ifs
      · apply (afterwards_of_ensures (unmoved_startWorkers _)).mono
        rintro _ _ _ rfl
        exact ⟨paused_of_not (hdrains.isInReorg.trans hreorg), hdrains.counts⟩
      · -- the first block of a reorg
        simp only [Prog.read_bind, Prog.modify_bind, safe_loc]
        apply afterwards_assertThat
        intro _
        rw [Afterwards, safe_loc, safe_loc]
        have hpaused : ∀ pendingReorg, Paused { flushed with pendingReorg := pendingReorg } ready :=
          fun _ _ => ⟨hempty, hready⟩
        generalize IndexerStore.isInReorg _ = asserted
        cases asserted with
        | false => trivial
        | true => exact ⟨hpaused _, hdrains.counts⟩

theorem keeping_insertExtending (hreorg : store.isInReorg = false) :
    Keeping D (insertExtending block) store w := by
  have hrest : Moves Any Drains (.loc (fun store => (store, store)) fun store =>
      (whenever (!store.mode.isBulk || decide (store.batchTxsTotal > 100000)) flushBatch).bind
        fun _ => whenever (store.nodeChainHeadHeight = block.height) (setMode .normal)) :=
    Moves.read fun _ => (moves_whenever _ drains_flushBatch).bind fun _ =>
      moves_whenever _ (drains_setMode .normal)
  have hpushed : (store.push block).isInReorg = false := hreorg
  apply (keeping_of_drains hrest hpushed).mono
  exact fun _ _ _ hafter => ⟨hafter.1, fun hcounts => hafter.2 (counts_push.2 hcounts)⟩

/-- In bulk mode the number of transactions decides whether the batch is flushed. -/
theorem ensures_insertExtending_bulk (hcounts : Counts store) (hbulk : store.mode.isBulk = true) :
    Ensures Any (fun _ after => after.mode.isBulk = true → after.batch =
        if 100000 < txsTotal (store.batch ++ [block]) then [] else store.batch ++ [block])
      (insertExtending block) store := by
  have hpushed : (store.push block).batchTxsTotal = txsTotal (store.batch ++ [block]) :=
    counts_push.2 hcounts
  have hmode : (store.push block).mode.isBulk = true := hbulk
  simp only [insertExtending, Prog.bind_eq, Prog.modify_bind, Prog.read_bind, ensures_loc, hmode,
    Bool.not_true, Bool.false_or, hpushed, gt_iff_lt]
  have hflush : Ensures Any (fun _ after => after.batch =
        if 100000 < txsTotal (store.batch ++ [block]) then [] else store.batch ++ [block])
      (whenever (decide (100000 < txsTotal (store.batch ++ [block]))) flushBatch)
      (store.push block) := by
    split_ifs with hfull
    · rw [decide_eq_true hfull, whenever_true]
      exact (ensures_flushBatch _).mono fun _ _ hafter => hafter.2.1
    · rw [decide_eq_false hfull, whenever_false]
      rfl
  apply Ensures.bind _ hflush
  intro _ flushed hflushed
  cases decide ((store.push block).nodeChainHeadHeight = block.height) with
  | false => exact fun _ => hflushed
  | true =>
      -- at the head of the node's chain bulk mode is left
      have hnormal : Moves Any (fun _ after => after.mode = .normal) (setMode .normal) := fun store =>
        (ensures_setMode (fun _ _ _ => trivial) .normal trivial (fun _ => trivial) trivial trivial).mono
          fun _ _ hafter => hafter.1
      apply (hnormal flushed).mono
      intro _ after hafter hstill
      rw [hafter] at hstill
      exact absurd hstill Bool.false_ne_true

/-- Outside a reorg a block is put on the tip, or is looked up below it. -/
theorem afterwards_insertWhenAtTip {Q : Unit → IndexerStore → World → Prop}
    (hbelow : ∀ w, block.height ≠ store.chainBlockCount →
      Afterwards D Q (insertBelowTip block) store w)
    (hextending : ∀ w, block.height = store.chainBlockCount →
      Afterwards D Q (insertExtending block) store w) :
    Afterwards D Q (insertWhenAtTip block) store w := by
  simp only [insertWhenAtTip, Prog.bind_eq, Prog.read_bind, Prog.perform_bind, safe_loc]
  apply afterwards_assertThat
  intro _
  apply afterwards_act
  intro stopped asked
  apply afterwards_assertThat
  intro _
  apply afterwards_assertThat
  intro _
  split_ifs with hheight
  · exact hbelow asked hheight
  · exact hextending asked (not_not.1 hheight)

/-- The counter stays right, except where a reorg brings transactions. -/
theorem afterwards_insert (hpaused : Paused store w) :
    Afterwards D (fun _ after later => Paused after later ∧
        (Counts store → (Counts after ↔ Weightless block store w.db)))
      (Store.insert block) store w := by
  simp only [Store.insert, Prog.bind_eq, Prog.read_bind, safe_loc]
  split_ifs with hreorg
  · obtain ⟨hbatch, hnone⟩ := hpaused hreorg
    simp only [insertWhenInReorg, Prog.bind_eq, Prog.read_bind, Prog.modify_bind, Prog.perform_bind,
      safe_loc]
    apply afterwards_assertThat
    intro _
    apply Safe.act_still (stable_still hnone) trivial
    intro _ _
    apply afterwards_assertThat
    intro _
    apply afterwards_assertThat
    intro _
    rw [Afterwards, safe_loc]
    change Afterwards D _ _ (attempting block store) w
    by_cases hheight : block.height = store.chainBlockCount
    · rw [decide_eq_true hheight, whenever_true]
      apply (afterwards_finishReorg hnone).mono
      rintro _ after later ⟨hout, hempty, htotal⟩
      refine ⟨paused_of_not hout, fun hcounts => ?_⟩
      have hzero : store.batchTxsTotal = 0 := by
        rw [hcounts, hbatch]
        rfl
      have hafter : after.batchTxsTotal = txsTotal (unstored (attempting block store) w.db) := by
        rw [htotal, attempting, hzero, Nat.zero_add]
      rw [Counts, hafter, hempty]
      exact ⟨fun hnothing _ _ => hnothing, fun hweightless => hweightless hreorg hheight⟩
    · rw [decide_eq_false hheight, whenever_false]
      have hweightless : Weightless block store w.db := fun _ htop => absurd htop hheight
      exact ⟨fun _ => ⟨hbatch, hnone⟩, fun hcounts => iff_of_true hcounts hweightless⟩
  · have hout : store.isInReorg = false := by simpa using hreorg
    have hweightless : Weightless block store w.db := fun hin => absurd hin hreorg
    have hkeeping : Keeping D (insertWhenAtTip block) store w :=
      afterwards_insertWhenAtTip (fun _ _ => keeping_insertBelowTip hout)
        fun _ _ => keeping_insertExtending hout
    apply hkeeping.mono
    exact fun _ after later hafter => ⟨hafter.1, fun hcounts => iff_of_true (hafter.2 hcounts) hweightless⟩

theorem drains_getHashByHeight (height : BlockHeight) : Moves Any Drains (getHashByHeight height) := by
  simp only [getHashByHeight, Prog.bind_eq, Prog.read_bind]
  apply Moves.read
  intro store
  split_ifs
  · exact Moves.value none
  · cases store.pendingReorg.get height with
    | some block => exact Moves.value _
    | none =>
        have hread : Unmoved Any (readDbBlockHashByHeight height) :=
          unmoved_readDbBlockHashByHeight (fun _ _ _ => trivial) height
        exact drains_flushWorkers.bind fun _ => hread.of_eq

theorem keeping_getHashByHeight (hpaused : Paused store w) (height : BlockHeight) :
    Keeping D (body (.getHashByHeight height)) store w := by
  cases hreorg : store.isInReorg with
  | false =>
      have hdrains : Moves Any Drains (body (.getHashByHeight height)) :=
        (drains_getHashByHeight height).bind fun _ => Moves.value ()
      exact keeping_of_drains hdrains hreorg
  | true =>
      -- there are no workers to be flushed
      obtain ⟨hbatch, hnone⟩ := hpaused hreorg
      have hsame : Afterwards D (fun _ after later => after = store ∧ later.workers = none)
          (getHashByHeight height) store w := by
        simp only [getHashByHeight, Prog.bind_eq, Prog.read_bind, safe_loc]
        split_ifs
        · exact ⟨rfl, hnone⟩
        · cases store.pendingReorg.get height with
          | some block => exact ⟨rfl, hnone⟩
          | none =>
              simp only [flushWorkers, Prog.bind_eq, Prog.perform_bind, Prog.act_bind]
              apply Safe.act_still (stable_still hnone) trivial
              intro fails _
              simp only [system, systemOf_exec, exec, hnone, Option.any_none, Bool.not_false, if_true]
              have hread : Unmoved Quiet (readDbBlockHashByHeight height) :=
                unmoved_readDbBlockHashByHeight (AllowsQuiet.simple fun _ _ hquiet => hquiet) height
              apply (afterwards_quiet (hread store) hnone).mono
              exact fun _ after later hafter => ⟨hafter.1.symm, hafter.2⟩
      apply Safe.bind _ hsame
      rintro _ _ later ⟨rfl, hlater⟩
      exact ⟨fun _ => ⟨hbatch, hlater⟩, id⟩

/-! ## Runs -/

/-- What a call makes of the counter. -/
def Outcome (before : StoreConfig) (after : IndexerStore) : Call → Prop
  | .start _ _ _ => Counts after
  | .insert block => Counts before.locals →
      (Counts after ↔ Weightless block before.locals before.shared.db)
  | .getHashByHeight _ => Counts before.locals → Counts after

theorem afterwards_call {c : StoreConfig} {call : Call} (hcall : answered.call call c)
    (hpaused : c.prog = .pure () → Paused c.locals c.shared) :
    Afterwards answered (fun _ after later => Paused after later ∧ Outcome c after call) (body call)
      c.locals (enter call c.shared) := by
  cases call with
  | start nodeChainHeadHeight network resume =>
      apply (afterwards_of_ensures (ensures_new nodeChainHeadHeight network)).mono
      exact fun _ _ _ hafter => ⟨paused_of_not hafter.1, hafter.2⟩
  | insert block =>
      have hentered : Paused c.locals (enter (.insert block) c.shared) := hpaused hcall
      exact afterwards_insert hentered
  | getHashByHeight height => exact keeping_getHashByHeight (hpaused hcall) height

/-- The latest call of a run, and the run before it. -/
def LastCall (labels before : List StoreLabel) (call : Call) : Prop :=
  ∃ during, labels = before ++ .call call :: during ∧ ∀ label ∈ during, ¬ IsCall label

theorem lastCall_append {labels before : List StoreLabel} {label : StoreLabel} {call : Call} :
    LastCall (labels ++ [label]) before call ↔
      label = .call call ∧ before = labels ∨ ¬ IsCall label ∧ LastCall labels before call := by
  constructor
  · rintro ⟨during, heq, hduring⟩
    obtain rfl | ⟨during, last, rfl⟩ := List.eq_nil_or_concat during
    · obtain ⟨rfl, hlabel⟩ := List.append_inj' heq rfl
      exact .inl ⟨List.singleton_injective hlabel, rfl⟩
    · rw [List.concat_eq_append, ← List.cons_append, ← List.append_assoc] at heq
      obtain ⟨rfl, hlabel⟩ := List.append_inj' heq rfl
      obtain rfl := List.singleton_injective hlabel
      refine .inr ⟨hduring label (by simp), during, rfl, fun other hmem => hduring other (by simp [hmem])⟩
  · rintro (⟨rfl, rfl⟩ | ⟨hlabel, during, rfl, hduring⟩)
    · exact ⟨[], rfl, by simp⟩
    · refine ⟨during ++ [label], by simp, ?_⟩
      intro other hmem
      rw [List.mem_append, List.mem_singleton] at hmem
      obtain hmem | rfl := hmem
      · exact hduring other hmem
      · exact hlabel

/-- What remains of a call that was made after `before`. -/
abbrev Remaining (before : List StoreLabel) (call : Call) (c : StoreConfig) : Prop :=
  SafeConfig system answered (fun _ => True) (fun _ _ _ => True)
    (fun after later => Paused after later ∧ Outcome (system.run before initial) after call) c

/-- Every step of a run leaves its latest call on the way to its outcome, and before the first
one nothing has returned. -/
theorem remaining_run {labels : List StoreLabel} (hfollows : answered.follows system labels initial) :
    (∀ before call, LastCall labels before call → Remaining before call (system.run labels initial)) ∧
      ((∃ before call, LastCall labels before call) ∨
        (system.run labels initial).prog = .halt .stopped) := by
  induction labels using List.reverseRecOn with
  | nil => exact ⟨by simp [LastCall], .inr rfl⟩
  | append_singleton labels label ih =>
      obtain ⟨hlabels, hadmits, -⟩ :=
        (answered.follows_append system labels [label] initial).1 hfollows
      obtain ⟨hremaining, hmade⟩ := ih hlabels
      have hrun : system.run (labels ++ [label]) initial =
          system.next label (system.run labels initial) := system.run_append labels [label] initial
      rw [hrun]
      cases label with
      | step fails =>
          constructor
          · intro before call hlast
            obtain ⟨hcall, -⟩ | ⟨-, hlast⟩ := lastCall_append.1 hlast
            · exact absurd hcall (by simp)
            · exact (hremaining before call hlast).advance hadmits
          · obtain ⟨before, call, hlast⟩ | hstopped := hmade
            · exact .inl ⟨before, call, lastCall_append.2 (.inr ⟨by simp [IsCall], hlast⟩)⟩
            · apply Or.inr
              simp only [System.next, System.advance, hstopped]
      | other event =>
          constructor
          · intro before call hlast
            obtain ⟨hcall, -⟩ | ⟨-, hlast⟩ := lastCall_append.1 hlast
            · exact absurd hcall (by simp)
            · apply Safe.interfere _ _ _ event _ hadmits (hremaining before call hlast)
              · exact fun _ after event w hevent h => ⟨stable_paused after event w hevent h.1, h.2⟩
              · exact fun _ _ _ _ _ _ => trivial
          · obtain ⟨before, call, hlast⟩ | hstopped := hmade
            · exact .inl ⟨before, call, lastCall_append.2 (.inr ⟨by simp [IsCall], hlast⟩)⟩
            · exact .inr hstopped
      | call call =>
          have hcalled : LastCall (labels ++ [.call call]) labels call :=
            lastCall_append.2 (.inl ⟨rfl, rfl⟩)
          refine ⟨?_, .inl ⟨labels, call, hcalled⟩⟩
          intro before other hlast
          obtain ⟨hother, rfl⟩ | ⟨hcall, -⟩ := lastCall_append.1 hlast
          · obtain rfl := Label.call.inj hother
            have hpaused : (system.run before initial).prog = .pure () →
                Paused (system.run before initial).locals (system.run before initial).shared := by
              intro hreturned
              obtain ⟨first, made, hlast⟩ | hstopped := hmade
              · have hsafe := hremaining first made hlast
                rw [Remaining, SafeConfig, hreturned, safe_pure] at hsafe
                exact hsafe.1
              · rw [hreturned] at hstopped
                exact absurd hstopped (by simp)
            exact (safe_settle _ _ _).2 (afterwards_call hadmits hpaused)
          · exact absurd ⟨call, rfl⟩ hcall

/-- A call that has returned has come to its outcome. -/
theorem outcome_of_returned {labels before : List StoreLabel} {call : Call}
    (hfollows : answered.follows system labels initial) (hlast : LastCall labels before call)
    (hreturned : (system.run labels initial).prog = .pure ()) :
    Outcome (system.run before initial) (system.run labels initial).locals call := by
  have hsafe := (remaining_run hfollows).1 before call hlast
  rw [Remaining, SafeConfig, hreturned, safe_pure] at hsafe
  exact hsafe.2

/-- Between two calls some call has been made before. -/
theorem exists_lastCall {labels : List StoreLabel} (hfollows : answered.follows system labels initial)
    (hreturned : (system.run labels initial).prog = .pure ()) :
    ∃ before call, LastCall labels before call := by
  apply (remaining_run hfollows).2.resolve_right
  rw [hreturned]
  simp

/-! ## The counter and the batch -/

/-- A block on the tip takes the batch to the workers exactly if they have more than 100000
transactions together, as long as bulk mode is not left. -/
def FlushesByTotal (c : StoreConfig) : Prop :=
  ∀ block store' w', c.locals.mode.isBulk = true → c.locals.isInReorg = false →
    block.height = c.locals.chainBlockCount →
      Returns system answered (body (.insert block)) c.locals (enter (.insert block) c.shared) ()
        store' w' → store'.mode.isBulk = true →
          store'.batch = if 100000 < txsTotal (c.locals.batch ++ [block]) then []
            else c.locals.batch ++ [block]

/-- The counter is the number of transactions in the batch, and tells when to flush it. -/
structure Accurate (c : StoreConfig) : Prop where
  counts : Counts c.locals
  flushes : FlushesByTotal c

theorem flushesByTotal {c : StoreConfig} (hcounts : Counts c.locals) : FlushesByTotal c := by
  intro block store' w' hbulk hout htip hreturns hstill
  have hsafe : Afterwards answered (fun _ after _ => after.mode.isBulk = true → after.batch =
        if 100000 < txsTotal (c.locals.batch ++ [block]) then [] else c.locals.batch ++ [block])
      (body (.insert block)) c.locals (enter (.insert block) c.shared) := by
    simp only [body, Store.insert, Prog.bind_eq, Prog.read_bind, safe_loc, hout, Bool.false_eq_true,
      if_false]
    apply afterwards_insertWhenAtTip
    · exact fun _ hbelow => absurd htip hbelow
    · exact fun _ _ => afterwards_of_ensures (ensures_insertExtending_bulk hcounts hbulk)
  exact hsafe.returns hreturns hstill

theorem LastCall.isPrefix {labels before : List StoreLabel} {call : Call}
    (h : LastCall labels before call) : before <+: labels := by
  obtain ⟨during, rfl, -⟩ := h
  exact List.prefix_append _ _

theorem LastCall.length_lt {labels before : List StoreLabel} {call : Call}
    (h : LastCall labels before call) : before.length < labels.length := by
  obtain ⟨during, rfl, -⟩ := h
  rw [List.length_append, List.length_cons]
  exact Nat.lt_add_of_pos_right (Nat.succ_pos _)

theorem LastCall.admitted {labels before : List StoreLabel} {call : Call}
    (h : LastCall labels before call) (hfollows : D.follows system labels initial) :
    D.follows system before initial ∧ D.call call (system.run before initial) := by
  obtain ⟨during, rfl, -⟩ := h
  obtain ⟨hbefore, hcall, -⟩ :=
    (D.follows_append system before (.call call :: during) initial).1 hfollows
  exact ⟨hbefore, hcall⟩

/-- By induction on the run: each call starts where an earlier one has returned. -/
theorem counts_of_weightless {labels : List StoreLabel}
    (hfollows : answered.follows system labels initial)
    (hweightless : ∀ first before block, first <+: labels → LastCall first before (.insert block) →
      (system.run first initial).prog = .pure () →
        Weightless block (system.run before initial).locals (system.run before initial).shared.db)
    (hreturned : (system.run labels initial).prog = .pure ()) :
    Counts (system.run labels initial).locals := by
  induction hlength : labels.length using Nat.strong_induction_on generalizing labels with
  | _ length ih =>
      obtain ⟨before, call, hlast⟩ := exists_lastCall hfollows hreturned
      have houtcome := outcome_of_returned hfollows hlast hreturned
      obtain ⟨hbefore, hcall⟩ := hlast.admitted hfollows
      have hcounts : (system.run before initial).prog = .pure () →
          Counts (system.run before initial).locals := by
        intro hpure
        apply ih before.length (hlength ▸ hlast.length_lt) hbefore _ hpure rfl
        exact fun first earlier block hfirst =>
          hweightless first earlier block (hfirst.trans hlast.isPrefix)
      cases call with
      | start nodeChainHeadHeight network resume => exact houtcome
      | getHashByHeight height => exact houtcome (hcounts hcall)
      | insert block =>
          have hlight := hweightless labels before block List.prefix_rfl hlast hreturned
          exact (houtcome (hcounts hcall)).2 hlight

/-- In every run the counter is right at every moment between two calls exactly if no reorg is
completed there whose new blocks have transactions. -/
theorem counter_matches_batch_iff (labels : List StoreLabel)
    (hfollows : answered.follows system labels initial) :
    (∀ first, first <+: labels → (system.run first initial).prog = .pure () →
        Accurate (system.run first initial)) ↔
      ∀ first before block, first <+: labels → LastCall first before (.insert block) →
        (system.run first initial).prog = .pure () →
          Weightless block (system.run before initial).locals (system.run before initial).shared.db := by
  have hinitial : ∀ first, first <+: labels → answered.follows system first initial := by
    rintro first ⟨rest, rfl⟩
    exact ((answered.follows_append system first rest initial).1 hfollows).1
  constructor
  · intro haccurate first before block hfirst hlast hreturned
    have hbefore : (system.run before initial).prog = .pure () := (hlast.admitted (hinitial first hfirst)).2
    have houtcome := outcome_of_returned (hinitial first hfirst) hlast hreturned
    have hcounts := (haccurate before (hlast.isPrefix.trans hfirst) hbefore).counts
    exact (houtcome hcounts).1 (haccurate first hfirst hreturned).counts
  · intro hweightless first hfirst hreturned
    have hcounts := counts_of_weightless (hinitial first hfirst)
      (fun later before block hlater => hweightless later before block (hlater.trans hfirst)) hreturned
    exact ⟨hcounts, flushesByTotal hcounts⟩

/-! ## Reorgs with and without transactions -/

/-- No insertion completes a reorg that brings transactions. -/
def light : Discipline Act IndexerStore Halt World WorkerEvent Call where
  event := fun _ _ => True
  access := fun _ _ _ => True
  call := fun call c =>
    match call with
    | .insert block => Weightless block c.locals c.shared.db
    | _ => True

theorem weightless_of_light {labels first before : List StoreLabel} {block : BlockData}
    (hlight : light.follows system labels initial) (hfirst : first <+: labels)
    (hlast : LastCall first before (.insert block)) :
    Weightless block (system.run before initial).locals (system.run before initial).shared.db := by
  obtain ⟨rest, rfl⟩ := hfirst
  have hfollows := ((light.follows_append system first rest initial).1 hlight).1
  exact (hlast.admitted hfollows).2

instance (block : BlockData) (store : IndexerStore) (db : Db) :
    Decidable (Weightless block store db) := by
  unfold Weightless
  infer_instance

def checkLight : StoreLabel → StoreConfig → Bool
  | .call (.insert block), c => decide (Weightless block c.locals c.shared.db)
  | _, _ => true

theorem light_of_check (label : StoreLabel) (c : StoreConfig) (h : checkLight label c = true) :
    light.admits label c := by
  cases label with
  | step fails => exact fun _ _ _ => trivial
  | other event => trivial
  | call call =>
      cases call with
      | insert block =>
          rw [checkLight, decide_eq_true_eq] at h
          exact h
      | _ => trivial

/-- A reorg at height 1 onto blocks without transactions, and a block on top of them. -/
@[irreducible]
def overtakingEmpty : List StoreLabel :=
  opening 5 .bitcoin ++ [minedBlock 0 1 0 11, minedBlock 1 2 1 12, blockAt 1 3 1,
    blockAt 2 4 3, minedBlock 3 5 4 15].flatMap fun block => calling (.insert block) 40

theorem empty_reorg_counted :
    (system.run overtakingEmpty initial).locals.batchTxsTotal = 1 ∧
      Accurate (system.run overtakingEmpty initial) := by
  have hfollows : answered.follows system overtakingEmpty initial :=
    follows_of_checkRun answered_of_check overtakingEmpty initial (by decide +kernel)
  have hlight : light.follows system overtakingEmpty initial :=
    follows_of_checkRun light_of_check overtakingEmpty initial (by decide +kernel)
  have hreturned : (system.run overtakingEmpty initial).prog = .pure () :=
    eq_pure_of_returned (by decide +kernel)
  have haccurate := (counter_matches_batch_iff overtakingEmpty hfollows).2
    fun first before block hfirst hlast _ => weightless_of_light hlight hfirst hlast
  have htotal : (system.run overtakingEmpty initial).locals.batchTxsTotal = 1 := by decide +kernel
  exact ⟨htotal, haccurate overtakingEmpty List.prefix_rfl hreturned⟩

/-- The block after the reorg is alone in the batch, but the counter has those of the reorg
too. -/
theorem reorg_stays_in_counter :
    ¬ ∀ (given : Set BlockData) (injective : Set.InjOn BlockData.hashId given) (network : Network)
      (labels : List StoreLabel),
        (prefetched (unrestricted given injective network)).follows system labels initial →
          (system.run labels initial).prog = .pure () →
            Counts (system.run labels initial).locals := by
  intro h
  have hfollows : (prefetched (unrestricted {block | block ∈ overtaken 13} (overtaken_injective 13)
      .bitcoin)).follows system (overtaking 5 13) initial :=
    follows_of_check (overtaking 5 13) initial (by decide +kernel)
  have hreturned : (system.run (overtaking 5 13) initial).prog = .pure () :=
    eq_pure_of_returned (by decide +kernel)
  have hcounts := h {block | block ∈ overtaken 13} (overtaken_injective 13) .bitcoin
    (overtaking 5 13) hfollows hreturned
  have hstale : (system.run (overtaking 5 13) initial).locals.batchTxsTotal = 3 ∧
      txsTotal (system.run (overtaking 5 13) initial).locals.batch = 1 := by
    decide +kernel
  rw [Counts, hstale.1, hstale.2] at hcounts
  exact absurd hcounts (by decide)

end BitcoinIndexer.BatchCounter
